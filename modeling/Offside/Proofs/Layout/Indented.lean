/-
Lines that are indented by a number of units.

A source is given by lines with the number of units before each (`Layout.sourceOf`). With another
unit it has the same tokens.
-/
import Offside.Proofs.Layout.Extent
import Offside.Proofs.Spelling.Lined

set_option autoImplicit false

namespace Offside

open List Text Reading Layout

/-! ## Sources with a unit -/

namespace Layout

def lineAt (unit : Text) (line : Nat × Text) : Text := repeated line.1 unit ++ line.2

def sourceOf (unit : Text) (lines : List (Nat × Text)) : Text :=
  join [lineEnd] (lines.map (lineAt unit))

/-- The text is a line without its indentation, and does not open a raw block. -/
structure Unindented (text : Text) : Prop where
  line : lineEnd ∉ text
  start : ∀ b ∈ text.head?, isIndent b = false
  words : opensRaw (content text) = false

def firstDepth : List (Nat × Text) → Nat
  | [] => 0
  | line :: lines => if (content line.2).isEmpty || line.1 == 0 then firstDepth lines else line.1

variable {u : Text} {line : Nat × Text} {lines : List (Nat × Text)} {text : Text} {m n : Nat}

theorem repeated_mul (m n : Nat) (u : Text) : repeated m (repeated n u) = repeated (m * n) u := by
  induction m with
  | zero => rw [Nat.zero_mul]; rfl
  | succ m ih => rw [repeated_succ, ih, ← repeated_add, Nat.succ_mul, Nat.add_comm]

theorem repeated_isEmpty (hu : u.isEmpty = false) (n : Nat) : (repeated n u).isEmpty = (n == 0) := by
  rcases n with _ | n
  · rfl
  · rw [repeated_succ, isEmpty_eq_false_iff.mpr]
    · rfl
    · exact append_ne_nil_of_left_ne_nil (isEmpty_eq_false_iff.mp hu) _

theorem content_lineAt (hindent : u.Leading) (line : Nat × Text) :
    content (lineAt u line) = content line.2 :=
  content_append (leading_repeated hindent _) _

theorem indentation_lineAt (hindent : u.Leading)
    (hstart : ∀ b ∈ line.2.head?, isIndent b = false) :
    indentation (lineAt u line) = repeated line.1 u := by
  have hnone : indentation line.2 = [] := by
    rw [indentation, takeWhile_eq_nil_iff]
    intro hpos hfirst
    rw [hstart _ (by rw [head?_eq_getElem?, getElem?_eq_getElem hpos]; rfl)] at hfirst
    cases hfirst
  rw [lineAt, indentation_append (leading_repeated hindent _), hnone, append_nil]

theorem lineEnd_not_mem_of_indent (hindent : u.Leading) : lineEnd ∉ u :=
  fun hmem => absurd (hindent _ hmem) (by decide)

theorem exists_pieces_sourceOf (hlines : ∀ line ∈ lines, Unindented line.2) :
    ∃ lines' : List (Nat × Text), (∀ line ∈ lines', Unindented line.2) ∧ ∀ u, u.Leading →
      (sourceOf u lines).pieces lineEnd = lines'.map (lineAt u) := by
  by_cases hnil : lines = []
  · subst hnil
    refine ⟨[(0, [])], forall_mem_singleton.mpr ⟨not_mem_nil, ?_, rfl⟩, fun _ _ => rfl⟩
    exact fun _ hb => nomatch hb
  · refine ⟨lines, hlines, fun u hindent => pieces_join (by simpa using hnil) fun l hl => ?_⟩
    obtain ⟨line, hline, rfl⟩ := mem_map.mp hl
    rw [lineAt, mem_append, not_or]
    exact ⟨lineEnd_not_mem_repeated (lineEnd_not_mem_of_indent hindent) _, (hlines line hline).line⟩

theorem firstIndentation_lineAt (hu : u.isEmpty = false) (hindent : u.Leading)
    (hlines : ∀ line ∈ lines, Unindented line.2) :
    firstIndentation (lines.map (lineAt u)) = repeated (firstDepth lines) u := by
  induction lines with
  | nil => rfl
  | cons line lines ih =>
    obtain ⟨hline, hlines⟩ := forall_mem_cons.mp hlines
    rw [map_cons, firstIndentation, firstDepth, content_lineAt hindent, indentation_lineAt hindent hline.start,
      repeated_isEmpty hu, ih hlines]
    split <;> rfl

theorem firstDepth_eq_zero (h : firstDepth lines = 0) :
    ∀ line ∈ lines, (content line.2).isEmpty = false → line.1 = 0 := by
  induction lines with
  | nil => exact forall_mem_nil _
  | cons line lines ih =>
    rw [firstDepth] at h
    split at h
    · next hskip =>
      refine forall_mem_cons.mpr ⟨fun hcontent => ?_, ih h⟩
      rw [hcontent, Bool.false_or] at hskip
      exact beq_iff_eq.mp hskip
    · next hfirst =>
      rw [h] at hfirst
      simp at hfirst

/-- The unit that is learned is a multiple of the one that was used. -/
theorem learnedUnit_lineAt (hu : u.isEmpty = false) (hindent : u.Leading)
    (hlines : ∀ line ∈ lines, Unindented line.2) :
    learnedUnit [] (lines.map (lineAt u)) = Stream.unitOr (repeated (firstDepth lines) u) := by
  rw [learnedUnit, firstIndentation_lineAt hu hindent hlines]
  rfl

theorem isLevel_iff (hu : u.isEmpty = false) : IsLevel u text n ↔ repeated n u = text := by
  constructor
  · exact Reading.IsLevel.repeated_eq
  · rintro rfl
    exact isLevel_repeated hu n

/-- So the level of a line does not depend on the unit. -/
theorem isLevel_lineAt (hu : u.isEmpty = false) (hindent : u.Leading)
    (hlines : ∀ line ∈ lines, Unindented line.2) (hline : line ∈ lines) (hcontent : (content line.2).isEmpty = false) :
    IsLevel (Stream.unitOr (repeated (firstDepth lines) u)) (indentation (lineAt u line)) n ↔
      n * firstDepth lines = line.1 ∧ (firstDepth lines = 0 → n = 0) := by
  rw [indentation_lineAt hindent (hlines line hline).start]
  by_cases hzero : firstDepth lines = 0
  · -- No line is indented, and the default unit is never looked at.
    rw [firstDepth_eq_zero hzero line hline hcontent, hzero, Nat.mul_zero]
    simp [repeated, IsLevel]
  · have hunit : (repeated (firstDepth lines) u).isEmpty = false := by
      rw [repeated_isEmpty hu]
      exact beq_eq_false_iff_ne.mpr hzero
    rw [unitOr_of_known hunit, isLevel_iff hunit, repeated_mul]
    constructor
    · exact fun h => ⟨repeated_inj hu h, fun h => absurd h hzero⟩
    · exact fun h => by rw [h.1]

end Layout

/-! ## Reading with two units -/

namespace Reading

open Layout (lineAt Unindented firstDepth)

variable {u u' line line' : Text} {lines lines' : List Text} {number : Nat} {s s' t t' : Reading}

/-- The line has the same words with both units, at the same level. -/
structure Similar (u u' line line' : Text) : Prop where
  content_eq : content line' = content line
  words : opensRaw (content line) = false
  level : (content line).isEmpty = false → ∀ level,
    IsLevel u (indentation line) level ↔ IsLevel u' (indentation line') level

theorem Similar.symm (h : Similar u u' line line') : Similar u' u line' line where
  content_eq := h.content_eq.symm
  words := by rw [h.content_eq]; exact h.words
  level := fun hcontent level => (h.level (by rw [← h.content_eq]; exact hcontent) level).symm

/-- Two readings, each with its unit, that have the same rows. No raw block is open. -/
structure Beside (u u' : Text) (s t : Reading) : Prop where
  known : u.isEmpty = false ∧ u'.isEmpty = false
  unit : s.unit = u ∧ t.unit = u'
  rows : t.rows = s.rows
  raw : s.raw = none ∧ t.raw = none

theorem Beside.symm (h : Beside u u' s t) : Beside u' u t s :=
  ⟨h.known.symm, h.unit.symm, h.rows.symm, h.raw.symm⟩

/-- A line of words that is read with one unit is read with the other. -/
theorem Beside.readWords_ok (h : Beside u u' s t) (hline : Similar u u' line line')
    (hcontent : (content line).isEmpty = false) (hread : readWords number line s = .ok () s') :
    ∃ t', readWords number line' t = .ok () t' ∧ Beside u u' s' t' := by
  have hunit : s.unitAt line = u := by
    rw [unitAt_of_known (by rw [h.unit.1]; exact h.known.1), h.unit.1]
  obtain ⟨level, words, detected, hlevel, hfits, hwords, rfl⟩ := Reading.readWords_ok hread
  rw [hunit, hline.level hcontent, ← h.unit.2] at hlevel
  rw [← h.rows] at hfits
  rw [← hline.content_eq] at hwords
  refine ⟨_, readWords_of_known (by rw [h.unit.2]; exact h.known.2) hlevel hfits hwords, h.known,
    ⟨hunit, h.unit.2⟩, by rw [withWords, h.rows], ?_⟩
  rw [withWords, hline.content_eq, hline.words]
  exact ⟨rfl, rfl⟩

/-- Similar lines have the same effect, or fail alike. -/
theorem Beside.step (h : Beside u u' s t) (hline : Similar u u' line line') (number : Nat) :
    Matched (Beside u u') (fun e e' => e'.line = e.line) (readLine number line s) (readLine number line' t) := by
  rw [readLine_of_none h.raw.1, readLine_of_none h.raw.2, hline.content_eq]
  cases hcontent : (content line).isEmpty with
  | true => exact .ok h
  | false =>
    rw [if_neg Bool.false_ne_true, if_neg Bool.false_ne_true]
    rcases hs : readWords number line s with ⟨_, s'⟩ | ⟨e, s'⟩
    · obtain ⟨t', ht, h'⟩ := h.readWords_ok hline hcontent hs
      rw [ht]
      exact .ok h'
    -- What the second reading accepts the first one accepts too, so both have an error here.
    rcases ht : readWords number line' t with ⟨_, t'⟩ | ⟨e', t'⟩
    · obtain ⟨_, hok, -⟩ := h.symm.readWords_ok hline.symm (by rw [hline.content_eq]; exact hcontent) ht
      rw [hs] at hok
      cases hok
    · refine .error ?_
      rw [readWords_error hs, readWords_error ht]

/-- So have all lines together. -/
theorem Beside.run (h : Beside u u' s t) (hlines : Forall₂ (Similar u u') lines lines') (number : Nat) :
    Matched (Beside u u') (fun e e' => e'.line = e.line) (readLines number lines s) (readLines number lines' t) := by
  induction hlines generalizing number s t with
  | nil => exact .ok h
  | cons hline _ ih => exact (h.step hline number).bind fun _ _ _ h => ih h (number + 1)

theorem similar_lineAt {lines : List (Nat × Text)} (hu : u.isEmpty = false ∧ u'.isEmpty = false)
    (hindent : u.Leading) (hindent' : u'.Leading)
    (hlines : ∀ line ∈ lines, Unindented line.2) :
    Forall₂ (Similar (Stream.unitOr (repeated (firstDepth lines) u))
      (Stream.unitOr (repeated (firstDepth lines) u'))) (lines.map (lineAt u)) (lines.map (lineAt u')) := by
  rw [forall₂_map_left_iff, forall₂_map_right_iff, forall₂_same]
  intro line hline
  have hcontent := content_lineAt hindent line
  refine ⟨?_, by rw [hcontent]; exact (hlines line hline).words, fun hfilled level => ?_⟩
  · rw [hcontent, content_lineAt hindent']
  · rw [hcontent] at hfilled
    rw [isLevel_lineAt hu.1 hindent hlines hline hfilled,
      isLevel_lineAt hu.2 hindent' hlines hline hfilled]

end Reading

/-- Both sources fail at the same line, or have the same tokens. -/
theorem scan_reindented {u u' : Text} {lines : List (Nat × Text)} (hu : u.isEmpty = false) (hu' : u'.isEmpty = false)
    (hindent : u.Leading) (hindent' : u'.Leading)
    (hlines : ∀ line ∈ lines, Unindented line.2) :
    (∃ e e', (scan [] (sourceOf u lines)).outcome = .error e ∧
      (scan [] (sourceOf u' lines)).outcome = .error e' ∧ e'.line = e.line) ∨
    ∃ depth tokens,
      (scan [] (sourceOf u lines)).outcome = .ok ⟨Stream.unitOr (repeated depth u), tokens⟩ ∧
      (scan [] (sourceOf u' lines)).outcome = .ok ⟨Stream.unitOr (repeated depth u'), tokens⟩ := by
  obtain ⟨lines', hlines', hpieces⟩ := exists_pieces_sourceOf hlines
  have hrun : ∀ u, u.isEmpty = false → u.Leading →
      (scan [] (sourceOf u lines)).outcome = outcome (readLines 1
        (lines'.map (lineAt u)) { unit := Stream.unitOr (repeated (Layout.firstDepth lines') u) }) := by
    intro u hu hindent
    rw [scan_learnedUnit (forall_mem_nil _), hpieces u hindent, learnedUnit_lineAt hu hindent hlines',
      scan_outcome, hpieces u hindent]
    exact leading_unitOr (leading_repeated hindent _)
  rw [hrun u hu hindent, hrun u' hu' hindent']
  generalize hdepth : Layout.firstDepth lines' = depth
  have hsimilar := similar_lineAt ⟨hu, hu'⟩ hindent hindent' hlines'
  rw [hdepth] at hsimilar
  have hstart : Reading.Beside (Stream.unitOr (repeated depth u)) (Stream.unitOr (repeated depth u'))
      { unit := Stream.unitOr (repeated depth u) } { unit := Stream.unitOr (repeated depth u') } :=
    ⟨⟨unitOr_isEmpty _, unitOr_isEmpty _⟩, ⟨rfl, rfl⟩, rfl, rfl, rfl⟩
  have hmatched := hstart.run hsimilar 1
  generalize readLines 1 (lines'.map (lineAt u)) _ = r at hmatched ⊢
  generalize readLines 1 (lines'.map (lineAt u')) _ = r' at hmatched ⊢
  cases hmatched with
  | @error e e' _ _ he => exact .inl ⟨e, e', rfl, rfl, he⟩
  | @ok _ s t h =>
    refine .inr ⟨depth, Row.allTokens s.rows.reverse, ?_, ?_⟩
    · rw [outcome, h.unit.1, unitOr_of_known (unitOr_isEmpty _)]
    · rw [outcome, h.unit.2, h.rows, unitOr_of_known (unitOr_isEmpty _)]

end Offside
