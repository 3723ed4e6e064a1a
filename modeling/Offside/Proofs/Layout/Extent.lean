/-
How far raw blocks go.

Which lines are raw is said of the lines alone (`Layout.IsRaw`). The scanner keeps the level of the
last opener and forgets it at the first line that ends the block; `Reading.Spans` says that it knows
just what the lines say.
-/
import Offside.Proofs.Layout.Unit

set_option autoImplicit false

namespace Offside

namespace Layout

open Reading (content indentation opensRaw)

def NonBlank (lines : List Text) (n : Nat) (line : Text) : Prop :=
  lines[n]? = some line ∧ (content line).isEmpty = false

/-- What every line of a raw block starts with when the opener of the block is at this level. -/
def margin (unit : Text) (level : Nat) : Text := Text.repeated (level + 1) unit

/-- Line `o` opens a raw block at this level, and no line before line `n` ends it. -/
structure OpenAt (unit : Text) (lines : List Text) (o level n : Nat) : Prop where
  lt : o < n
  opener : ∃ line, NonBlank lines o line ∧ opensRaw (content line) ∧
    indentation line = Text.repeated level unit
  inside : ∀ k line, o < k → k < n → NonBlank lines k line → margin unit level <+: line

def IsRaw (unit : Text) (lines : List Text) (n : Nat) : Prop :=
  ∃ o, ∃ _ : o < n, ¬ IsRaw unit lines o ∧ ∃ level line, OpenAt unit lines o level n ∧
    NonBlank lines n line ∧ margin unit level <+: line
termination_by n

variable {unit line : Text} {lines : List Text} {level n o : Nat}

def InBlock (unit : Text) (lines : List Text) (o n : Nat) : Prop :=
  ¬ IsRaw unit lines o ∧ ∃ level line, OpenAt unit lines o level n ∧ NonBlank lines n line ∧
    margin unit level <+: line

theorem isRaw_iff : IsRaw unit lines n ↔ ∃ o, InBlock unit lines o n := by
  rw [IsRaw]
  constructor
  · rintro ⟨o, -, ho, h⟩
    exact ⟨o, ho, h⟩
  · rintro ⟨o, ho, level, line, hopen, h⟩
    exact ⟨o, hopen.lt, ho, level, line, hopen, h⟩

theorem not_isRaw_of_not_opensRaw (h : ∀ line ∈ lines, opensRaw (content line) = false) (unit : Text) (n : Nat) :
    ¬ IsRaw unit lines n := by
  rw [isRaw_iff]
  rintro ⟨o, -, level, line, hopen, -⟩
  obtain ⟨opener, hopener, hopens, -⟩ := hopen.opener
  rw [h opener (List.mem_of_getElem? hopener.1)] at hopens
  cases hopens

theorem NonBlank.unique {line' : Text} (h : NonBlank lines n line) (h' : NonBlank lines n line') : line = line' :=
  Option.some.inj (h.1.symm.trans h'.1)

theorem not_nonBlank_of_blank (hline : lines[n]? = some line) (hblank : (content line).isEmpty)
    (line' : Text) : ¬ NonBlank lines n line' := by
  rintro ⟨hline', hfilled⟩
  obtain rfl := Option.some.inj (hline.symm.trans hline')
  rw [hblank] at hfilled
  cases hfilled

/-- A block stays open at a line with its margin. -/
theorem OpenAt.succ (h : OpenAt unit lines o level n)
    (hn : ∀ line, NonBlank lines n line → margin unit level <+: line) : OpenAt unit lines o level (n + 1) where
  lt := Nat.lt_succ_of_lt h.lt
  opener := h.opener
  inside := by
    intro k line hk hkn hline
    rcases Nat.lt_succ_iff_lt_or_eq.mp hkn with hkn | rfl
    · exact h.inside k line hk hkn hline
    · exact hn line hline

theorem OpenAt.of_succ (h : OpenAt unit lines o level (n + 1)) (hne : o ≠ n) : OpenAt unit lines o level n where
  lt := Nat.lt_of_le_of_ne (Nat.lt_succ_iff.mp h.lt) hne
  opener := h.opener
  inside := fun k line hk hkn => h.inside k line hk (Nat.lt_succ_of_lt hkn)

theorem OpenAt.inBlock (h : OpenAt unit lines o level n) (ho : ¬ IsRaw unit lines o) (hline : NonBlank lines n line)
    (hmargin : margin unit level <+: line) : InBlock unit lines o n :=
  ⟨ho, level, line, h, hline, hmargin⟩

end Layout

/-! ## The block in the state -/

variable {base : Nat}

namespace Reading

open Layout (NonBlank OpenAt IsRaw InBlock margin)

variable {unit line : Text} {lines : List Text} {n : Nat} {s s' : Reading}

theorem repeated_inj (hunit : unit.isEmpty = false) {i j : Nat}
    (h : Text.repeated i unit = Text.repeated j unit) : i = j := by
  have hi := isLevel_repeated hunit i
  have hj := isLevel_repeated hunit j
  rw [h] at hi
  rw [IsLevel] at hi hj
  split at hi
  · next hempty =>
    rw [if_pos hempty] at hj
    omega
  · next hempty =>
    rw [if_neg hempty, hi] at hj
    exact Option.some.inj hj

theorem rawText?_isSome (hunit : unit.isEmpty = false) :
    (rawText? unit base line).isSome ↔ margin unit base <+: line := by
  rw [rawText?, hunit, if_neg Bool.false_ne_true, Text.after?, margin, ← List.isPrefixOf_iff_prefix]
  split <;> simp_all

theorem rawText?_eq_none_iff (hunit : unit.isEmpty = false) :
    rawText? unit base line = none ↔ ¬ margin unit base <+: line := by
  rw [← rawText?_isSome hunit, Bool.not_eq_true, Option.isSome_eq_false_iff, Option.isNone_iff_eq_none]

/-- The state after `n` lines knows the raw block that may go on. -/
structure Spans (u : Text) (lines : List Text) (n : Nat) (s : Reading) : Prop where
  known : u.isEmpty = false
  unit : s.unit = u
  raw : ∀ level, (∃ block, s.raw = some block ∧ block.base = level) ↔
    ∃ o, ¬ IsRaw u lines o ∧ OpenAt u lines o level n
  started : ∀ block, s.raw = some block → block.started →
    ∃ o i, i < n ∧ InBlock u lines o i ∧ OpenAt u lines o block.base n

theorem spans_start (hunit : unit.isEmpty = false) (lines : List Text) : Spans unit lines 0 { unit := unit } where
  known := hunit
  unit := rfl
  raw := by
    intro level
    constructor
    · rintro ⟨_, hblock, -⟩
      cases hblock
    · rintro ⟨o, -, hopen⟩
      exact absurd hopen.lt (Nat.not_lt_zero o)
  started := fun _ hblock => nomatch hblock

theorem Spans.unitAt_eq (h : s.Spans unit lines n) (line : Text) : s.unitAt line = unit := by
  rw [unitAt_of_known (by rw [h.unit]; exact h.known), h.unit]

/-- The state knows whether the next line is raw. -/
theorem Spans.isRaw_iff (h : s.Spans unit lines n) (hline : NonBlank lines n line) :
    IsRaw unit lines n ↔ ∃ block, s.raw = some block ∧ margin unit block.base <+: line := by
  rw [Layout.isRaw_iff]
  constructor
  · rintro ⟨o, ho, level, line', hopen, hline', hmargin⟩
    obtain ⟨block, hblock, rfl⟩ := (h.raw level).mpr ⟨o, ho, hopen⟩
    rw [hline.unique hline']
    exact ⟨block, hblock, hmargin⟩
  · rintro ⟨block, hblock, hmargin⟩
    obtain ⟨o, ho, hopen⟩ := (h.raw block.base).mp ⟨block, hblock, rfl⟩
    exact ⟨o, hopen.inBlock ho hline hmargin⟩

theorem Spans.not_isRaw_iff (h : s.Spans unit lines n) (hline : NonBlank lines n line) :
    ¬ IsRaw unit lines n ↔ ∀ block, s.raw = some block → rawText? (s.unitAt line) block.base line = none := by
  rw [h.isRaw_iff hline, h.unitAt_eq]
  simp only [rawText?_eq_none_iff h.known, not_exists, not_and]

theorem Spans.margin_of_rawText? {block : RawBlock} {text : Text} (h : s.Spans unit lines n)
    (htext : rawText? (s.unitAt line) block.base line = some text) : margin unit block.base <+: line := by
  rw [h.unitAt_eq] at htext
  rw [← rawText?_isSome h.known, htext]
  rfl

theorem Spans.keep (h : s.Spans unit lines n) (hline : ∀ line, NonBlank lines n line → IsRaw unit lines n ∧
      ∀ block, s.raw = some block → margin unit block.base <+: line) (level : Nat) :
    (∃ o, ¬ IsRaw unit lines o ∧ OpenAt unit lines o level (n + 1)) ↔
      ∃ o, ¬ IsRaw unit lines o ∧ OpenAt unit lines o level n := by
  constructor
  · rintro ⟨o, ho, hopen⟩
    refine ⟨o, ho, hopen.of_succ ?_⟩
    rintro rfl
    obtain ⟨line, hfilled, -⟩ := hopen.opener
    exact ho (hline line hfilled).1
  · rintro ⟨o, ho, hopen⟩
    obtain ⟨block, hblock, rfl⟩ := (h.raw level).mpr ⟨o, ho, hopen⟩
    exact ⟨o, ho, hopen.succ fun line hfilled => (hline line hfilled).2 block hblock⟩

/-- A line that is read keeps the state and the lines in step. -/
theorem Spans.step (h : s.Spans unit lines n) (hline : lines[n]? = some line)
    (hreads : Reads (n + 1) line s s') : s'.Spans unit lines (n + 1) := by
  have hunit := h.unitAt_eq line
  cases hreads with
  | blank hempty hraw =>
    have hblank := Layout.not_nonBlank_of_blank hline hempty
    refine ⟨h.known, h.unit, fun level => ?_, fun block hblock => ?_⟩
    · rw [h.keep fun line' hfilled => absurd hfilled (hblank line')]
      exact h.raw level
    · rw [hraw] at hblock
      cases hblock
  | @rawBlank block hempty hraw =>
    have hblank := Layout.not_nonBlank_of_blank hline hempty
    refine ⟨h.known, h.unit, fun level => ?_, ?_⟩
    · rw [h.keep fun line' hfilled => absurd hfilled (hblank line'), ← h.raw level, hraw]
      simp
    · rintro _ ⟨⟩ hstarted
      obtain ⟨o, i, hi, hin, hopen⟩ := h.started block hraw hstarted
      exact ⟨o, i, Nat.lt_succ_of_lt hi, hin, hopen.succ fun line' hfilled => absurd hfilled (hblank line')⟩
  | @rawLine block text hcontent hraw htext =>
    have hmargin := h.margin_of_rawText? htext
    have hfilled : NonBlank lines n line := ⟨hline, hcontent⟩
    have hisRaw := (h.isRaw_iff hfilled).mpr ⟨block, hraw, hmargin⟩
    have hall : ∀ line', NonBlank lines n line' → margin unit block.base <+: line' := by
      intro line' hline'
      rw [← hfilled.unique hline']
      exact hmargin
    refine ⟨h.known, hunit, fun level => ?_, ?_⟩
    · rw [h.keep fun line' hline' => ⟨hisRaw, fun block' hblock' => ?_⟩, ← h.raw level, hraw]
      · simp
      · rw [hraw] at hblock'
        cases hblock'
        exact hall line' hline'
    · rintro _ ⟨⟩ -
      obtain ⟨o, ho, hopen⟩ := (h.raw block.base).mp ⟨block, hraw, rfl⟩
      exact ⟨o, n, Nat.lt_succ_self n, hopen.inBlock ho hfilled hmargin, hopen.succ hall⟩
  | @words level words detected hcontent hraw hlevel hfits hwords =>
    rw [hunit] at hlevel
    have hfilled : NonBlank lines n line := ⟨hline, hcontent⟩
    have hno := (h.not_isRaw_iff hfilled).mpr hraw
    refine ⟨h.known, hunit, fun base => ?_, ?_⟩
    · constructor
      · rintro ⟨block, hblock, rfl⟩
        dsimp only at hblock
        split at hblock
        · next hopens =>
          cases hblock
          refine ⟨n, hno, Nat.lt_succ_self n, ⟨line, hfilled, hopens, hlevel.repeated_eq.symm⟩, ?_⟩
          intro k line' hk hkn
          omega
        · cases hblock
      · rintro ⟨o, ho, hopen⟩
        by_cases hon : o = n
        · subst hon
          obtain ⟨line', hfilled', hopens, hindentation⟩ := hopen.opener
          obtain rfl := hfilled.unique hfilled'
          refine ⟨{ base := level }, if_pos hopens, repeated_inj h.known ?_⟩
          rw [hlevel.repeated_eq, hindentation]
        · -- A block from above would have taken the line.
          have hmargin := hopen.inside n line (hopen.of_succ hon).lt (Nat.lt_succ_self n) hfilled
          exact absurd (Layout.isRaw_iff.mpr ⟨o, (hopen.of_succ hon).inBlock ho hfilled hmargin⟩) hno
    · intro block hblock hstarted
      dsimp only at hblock
      split at hblock
      · cases hblock
        cases hstarted
      · cases hblock

end Reading

end Offside
