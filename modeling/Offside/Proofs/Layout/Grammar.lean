/-
The sources that can be scanned.

A line of words has to be indented by a whole number of units, at most one more than the line of
words above it, and has to be cut into words (`Layout.Admitted`). Nothing is asked of other lines.
-/
import Offside.Proofs.Layout.Extent

set_option autoImplicit false

open List

namespace Offside

namespace Layout

open Reading (content indentation)

def HasWords (unit : Text) (lines : List Text) (n : Nat) (line : Text) : Prop :=
  NonBlank lines n line ∧ ¬ IsRaw unit lines n

/-- Line `m` is the nearest line of words above line `n`. -/
structure Above (unit : Text) (lines : List Text) (m n : Nat) (line : Text) : Prop where
  lt : m < n
  words : HasWords unit lines m line
  nearest : ∀ k line', m < k → k < n → ¬ HasWords unit lines k line'

def Admitted (unit : Text) (lines : List Text) (n : Nat) : Prop :=
  ∀ line, HasWords unit lines n line → ∃ level, indentation line = Text.repeated level unit ∧
    ((∀ m line', m < n → ¬ HasWords unit lines m line') → level = 0) ∧
    (∀ m line' level', Above unit lines m n line' → indentation line' = Text.repeated level' unit →
      level ≤ level' + 1) ∧
    ∃ words, Word.cut (content line) = .ok words

variable {unit line line' : Text} {lines : List Text} {m m' n : Nat}

theorem Above.unique (h : Above unit lines m n line) (h' : Above unit lines m' n line') : line = line' := by
  obtain hlt | rfl | hlt := Nat.lt_trichotomy m m'
  · exact absurd h'.words (h.nearest m' line' hlt h'.lt)
  · exact h.words.1.unique h'.words.1
  · exact absurd h.words (h'.nearest m line hlt h.lt)

theorem Above.succ (h : Above unit lines m n line) (hn : ∀ line', ¬ HasWords unit lines n line') :
    Above unit lines m (n + 1) line where
  lt := Nat.lt_succ_of_lt h.lt
  words := h.words
  nearest := by
    intro k line' hk hkn
    rcases Nat.lt_succ_iff_lt_or_eq.mp hkn with hkn | rfl
    · exact h.nearest k line' hk hkn
    · exact hn line'

theorem HasWords.above (h : HasWords unit lines n line) : Above unit lines n (n + 1) line where
  lt := Nat.lt_succ_self n
  words := h
  nearest := by
    intro k line' hk hkn
    omega

end Layout

namespace Reading

open Layout (NonBlank IsRaw HasWords Above Admitted)

variable {unit line : Text} {lines : List Text} {n level : Nat} {s s' : Reading} {row : Row}

/-! ## The line of words above -/

def wordsLevel (s : Reading) (row : Row) : Nat := (s.raw.map RawBlock.base).getD row.level

/-- The state after `n` lines that are all admitted. -/
structure Parses (u : Text) (lines : List Text) (n : Nat) (s : Reading) : Prop where
  spans : s.Spans u lines n
  sound : s.Sound lines (n + 1)
  first : s.rows = [] → ∀ m line, m < n → ¬ HasWords u lines m line
  above : ∀ row ∈ s.rows.head?, ∃ m line, Above u lines m n line ∧
    indentation line = Text.repeated (s.wordsLevel row) u

theorem parses_start (hunit : unit.isEmpty = false) (lines : List Text) : Parses unit lines 0 { unit := unit } where
  spans := spans_start hunit lines
  sound := sound_start lines unit
  first := fun _ m _ hm => absurd hm (Nat.not_lt_zero m)
  above := fun _ hrow => nomatch hrow

/-- A level fits the state if it fits the line of words above. -/
theorem Parses.fits_iff (h : s.Parses unit lines n) (hwords : HasWords unit lines n line)
    (hlevel : IsLevel unit (indentation line) level) : Fits s.rows.head? level ↔
      ((∀ m line', m < n → ¬ HasWords unit lines m line') → level = 0) ∧
      ∀ m line' level', Above unit lines m n line' → indentation line' = Text.repeated level' unit →
        level ≤ level' + 1 := by
  rcases hhead : s.rows.head? with _ | row
  · -- There is no row, and so there is no line of words.
    have hfirst := h.first (head?_eq_none_iff.mp hhead)
    refine ⟨fun hzero => ⟨fun _ => hzero, ?_⟩, fun hall => hall.1 hfirst⟩
    intro m line' _ habove
    exact absurd habove.words (hfirst m line' habove.lt)
  obtain ⟨m, above, habove, hindentation⟩ := h.above row hhead
  have hgrammar : ((∀ m line', m < n → ¬ HasWords unit lines m line') → level = 0) ∧
      (∀ m line' level', Above unit lines m n line' → indentation line' = Text.repeated level' unit →
        level ≤ level' + 1) ↔ level ≤ s.wordsLevel row + 1 := by
    constructor
    · exact fun hall => hall.2 m above _ habove hindentation
    · refine fun hle => ⟨fun hnone => absurd habove.words (hnone m above habove.lt), ?_⟩
      intro m' line' level' habove' hlevel'
      rw [← habove.unique habove', hindentation] at hlevel'
      rw [← repeated_inj h.spans.known hlevel']
      exact hle
  rw [hgrammar]
  have hfits := h.sound.raw
  rw [hhead] at hfits
  change level ≤ row.level + 1 ↔ _
  rcases hraw : s.raw with _ | block
  · rw [wordsLevel, hraw]
    rfl
  · rw [hraw] at hfits
    obtain ⟨last, hlast, -, hcontinues⟩ := hfits
    obtain rfl := Option.some.inj hlast
    have hbase : level ≤ block.base := by
      have hnone := (h.spans.not_isRaw_iff hwords.1).mp hwords.2 block hraw
      refine level_le_base ?_ hnone
      rw [h.spans.unitAt_eq]
      exact hlevel
    -- So it fits below the opener, and all the more below the last row of the block.
    have hdeep : block.base ≤ row.level := by
      rw [hcontinues]
      split <;> omega
    rw [wordsLevel, hraw]
    change _ ↔ level ≤ block.base + 1
    constructor <;> intro <;> omega

/-! ## Step by step -/

theorem Parses.succ (h : s.Parses unit lines n) (hno : ∀ line, ¬ HasWords unit lines n line) :
    (s.rows = [] → ∀ m line, m < n + 1 → ¬ HasWords unit lines m line) ∧
      ∀ row ∈ s.rows.head?, ∃ m line, Above unit lines m (n + 1) line ∧
        indentation line = Text.repeated (s.wordsLevel row) unit := by
  constructor
  · intro hnil m line hm
    rcases Nat.lt_succ_iff_lt_or_eq.mp hm with hm | rfl
    · exact h.first hnil m line hm
    · exact hno line
  · intro row hrow
    obtain ⟨m, line, habove, hindentation⟩ := h.above row hrow
    exact ⟨m, line, habove.succ hno, hindentation⟩

theorem not_hasWords_of_blank (hline : lines[n]? = some line) (hblank : (content line).isEmpty)
    (line' : Text) : ¬ HasWords unit lines n line' :=
  fun hwords => Layout.not_nonBlank_of_blank hline hblank line' hwords.1

/-- A line that is read keeps the state and the lines in step. -/
theorem Parses.step (h : s.Parses unit lines n) (hline : lines[n]? = some line)
    (hreads : Reads (n + 1) line s s') : s'.Parses unit lines (n + 1) := by
  have hspans := h.spans.step hline hreads
  have hsound := h.sound.step hline hreads
  cases hreads with
  | blank hblank hraw =>
    obtain ⟨hfirst, habove⟩ := h.succ (not_hasWords_of_blank hline hblank)
    exact ⟨hspans, hsound, hfirst, habove⟩
  | @rawBlank block hblank hraw =>
    obtain ⟨hfirst, habove⟩ := h.succ (not_hasWords_of_blank hline hblank)
    refine ⟨hspans, hsound, hfirst, fun row hrow => ?_⟩
    obtain ⟨m, line', habove, hindentation⟩ := habove row hrow
    rw [wordsLevel, hraw] at hindentation
    exact ⟨m, line', habove, hindentation⟩
  | @rawLine block text hcontent hraw htext =>
    have hisRaw := (h.spans.isRaw_iff ⟨hline, hcontent⟩).mpr ⟨block, hraw, h.spans.margin_of_rawText? htext⟩
    obtain ⟨-, habove⟩ := h.succ fun line' hwords => hwords.2 hisRaw
    have hfits := h.sound.raw
    rw [hraw] at hfits
    obtain ⟨last, hlast, -⟩ := hfits
    obtain ⟨m, line', habove, hindentation⟩ := habove last hlast
    rw [wordsLevel, hraw] at hindentation
    refine ⟨hspans, hsound, fun hnil => (nomatch hnil), ?_⟩
    exact fun _ _ => ⟨m, line', habove, hindentation⟩
  | @words level words detected hcontent hraw hlevel hfits hwords =>
    rw [h.spans.unitAt_eq] at hlevel
    have hasWords : HasWords unit lines n line :=
      ⟨⟨hline, hcontent⟩, (h.spans.not_isRaw_iff ⟨hline, hcontent⟩).mpr hraw⟩
    refine ⟨hspans, hsound, fun hnil => (nomatch hnil), ?_⟩
    rintro _ ⟨⟩
    refine ⟨n, line, hasWords.above, ?_⟩
    rw [← hlevel.repeated_eq, wordsLevel]
    dsimp only
    split <;> rfl

/-- A line is read just if it is admitted. -/
theorem Parses.readLine_cases (h : s.Parses unit lines n) (hline : lines[n]? = some line) :
    (∃ s', readLine (n + 1) line s = .ok () s' ∧ Admitted unit lines n) ∨
      ∃ e s', readLine (n + 1) line s = .error e s' ∧ ¬ Admitted unit lines n := by
  rcases hread : readLine (n + 1) line s with ⟨_, s'⟩ | ⟨e, s'⟩
  · refine .inl ⟨s', rfl, fun line' hwords => ?_⟩
    obtain rfl := Option.some.inj (hline.symm.trans hwords.1.1)
    cases readLine_ok hread with
    | blank hblank | rawBlank hblank => exact absurd hwords (not_hasWords_of_blank hline hblank line)
    | @rawLine block text hcontent hraw htext =>
      exact absurd ((h.spans.isRaw_iff hwords.1).mpr ⟨block, hraw, h.spans.margin_of_rawText? htext⟩) hwords.2
    | @words level words detected hcontent hraw hlevel hfits hcut =>
      rw [h.spans.unitAt_eq] at hlevel
      obtain ⟨hfirst, habove⟩ := (h.fits_iff hwords hlevel).mp hfits
      exact ⟨level, hlevel.repeated_eq.symm, hfirst, habove, words, hcut⟩
  · refine .inr ⟨e, s', rfl, fun hadmitted => ?_⟩
    have hnonblank : NonBlank lines n line := ⟨hline, (readLine_error hread).2⟩
    have hunit : s.unit.isEmpty = false := by rw [h.spans.unit]; exact h.spans.known
    obtain ⟨r, hreads⟩ : ∃ r, Reads (n + 1) line s r := by
      by_cases hisRaw : IsRaw unit lines n
      · obtain ⟨block, hraw, hmargin⟩ := (h.spans.isRaw_iff hnonblank).mp hisRaw
        rw [← rawText?_isSome h.spans.known, ← h.spans.unitAt_eq line] at hmargin
        obtain ⟨text, htext⟩ := Option.isSome_iff_exists.mp hmargin
        exact ⟨_, .rawLine hnonblank.2 hraw htext⟩
      · obtain ⟨level, hindentation, hfirst, habove, words, hcut⟩ := hadmitted line ⟨hnonblank, hisRaw⟩
        have hlevel : IsLevel unit (indentation line) level := by
          rw [hindentation]
          exact isLevel_repeated h.spans.known level
        have hfits := (h.fits_iff ⟨hnonblank, hisRaw⟩ hlevel).mpr ⟨hfirst, habove⟩
        rw [← h.spans.unitAt_eq line] at hlevel
        have hraw := (h.spans.not_isRaw_iff hnonblank).mp hisRaw
        exact ⟨⟨_, none, _, _⟩, .words hnonblank.2 hraw hlevel hfits hcut⟩
    rw [hreads.readLine_eq hunit] at hread
    cases hread

/-- Lines are read up to the first that is not admitted. -/
theorem Parses.run (before : List Text) {rest : List Text} (hlines : lines = before ++ rest)
    (h : s.Parses unit lines before.length) (hbefore : ∀ m < before.length, Admitted unit lines m) :
    (∃ s', readLines (before.length + 1) rest s = .ok () s' ∧ ∀ m < lines.length, Admitted unit lines m) ∨
      ∃ e s', readLines (before.length + 1) rest s = .error e s' ∧
        ∃ n : Nat, e.line = n + 1 ∧ ¬ Admitted unit lines n ∧ ∀ m < n, Admitted unit lines m := by
  induction rest generalizing before s with
  | nil =>
    rw [append_nil] at hlines
    exact .inl ⟨s, rfl, by rw [hlines] at hbefore ⊢; exact hbefore⟩
  | cons line rest ih =>
    have hline : lines[before.length]? = some line := by
      rw [hlines, getElem?_append_right (Nat.le_refl _), Nat.sub_self]
      rfl
    rw [readLines]
    rcases h.readLine_cases hline with ⟨s', hread, hadmitted⟩ | ⟨e, s', hread, hrefused⟩
    · have hlength : (before ++ [line]).length = before.length + 1 := by simp
      have hnext := h.step hline (readLine_ok hread)
      rw [bind_of_ok _ hread]
      rw [← hlength] at hnext ⊢
      refine ih (before ++ [line]) (by rw [hlines, append_assoc]; rfl) hnext fun m hm => ?_
      rw [hlength] at hm
      rcases Nat.lt_succ_iff_lt_or_eq.mp hm with hm | rfl
      · exact hbefore m hm
      · exact hadmitted
    · refine .inr ⟨e, s', by rw [bind_of_error _ hread], before.length, ?_, hrefused, hbefore⟩
      rw [(readLine_error hread).1]
      rfl

end Reading

/-- Scanning accepts just the sources all of whose lines the grammar admits, and it stops at the
first line that is not admitted. -/
theorem scan_accepts_iff_admitted {unit source : Text} (hunit : unit ≠ []) :
    ((∃ scanned, (scan unit source).outcome = .ok scanned) ↔ ∀ n, Layout.Admitted unit source.lines n) ∧
      ∀ e, (scan unit source).outcome = .error e →
        ∃ n : Nat, e.line = n + 1 ∧ ¬ Layout.Admitted unit source.lines n ∧
          ∀ m < n, Layout.Admitted unit source.lines m := by
  have hempty : unit.isEmpty = false := isEmpty_eq_false_iff.mpr hunit
  have hlines : source.lines = [] ++ source.lines := rfl
  have hrun := (Reading.parses_start hempty source.lines).run [] hlines
    (fun m hm => absurd hm (Nat.not_lt_zero m))
  -- There are no lines after the last one, and nothing is asked of them.
  have hall : (∀ m < source.lines.length, Layout.Admitted unit source.lines m) →
      ∀ n, Layout.Admitted unit source.lines n := by
    intro hadmitted n line hwords
    obtain ⟨hn, -⟩ := List.getElem?_eq_some_iff.mp hwords.1.1
    exact hadmitted n hn line hwords
  rcases hrun with ⟨s, hread, hadmitted⟩ | ⟨e, s, hread, n, hline, hrefused, hbefore⟩
  · have hok := scan_ok_iff.mpr ⟨s, hread, rfl⟩
    refine ⟨⟨fun _ => hall hadmitted, fun _ => ⟨_, hok⟩⟩, fun e herror => ?_⟩
    rw [hok] at herror
    cases herror
  · have herror : (scan unit source).outcome = .error e := by
      have hread : Reading.readLines 1 source.lines { unit := unit } = .error e s := hread
      rw [scan, EStateM.run, hread]
    refine ⟨⟨?_, fun hadmitted => absurd (hadmitted n) hrefused⟩, ?_⟩
    · rintro ⟨_, hok⟩
      rw [herror] at hok
      cases hok
    · rw [herror]
      rintro _ ⟨⟩
      exact ⟨n, hline, hrefused, hbefore⟩

/-- A line that is two levels too deep, below a raw block whose lines are indented as they like. -/
theorem scan_accepts_iff_admitted_jump :
    let source : Text := ("if a:\n  #\n     odd\n\n  b = 1\n      c = 2\n" : String)
    ∃ e, (scan ("  " : String) source).outcome = .error e ∧ e.line = 6 ∧
      ¬ Layout.Admitted ("  " : String) source.lines 5 ∧ ∀ m < 5, Layout.Admitted ("  " : String) source.lines m := by
  intro source
  have hline : (((scan ("  " : String) source).outcome.map fun _ => (0 : Int)).tryCatch
      fun e => .ok e.line).toOption = some 6 := by decide +kernel
  rcases hscan : (scan ("  " : String) source).outcome with e | scanned
  · rw [hscan] at hline
    have hline : e.line = 6 := Option.some.inj hline
    obtain ⟨n, hn, hrefused, hbefore⟩ := (scan_accepts_iff_admitted (cons_ne_nil _ _)).2 e hscan
    obtain rfl : n = 5 := by omega
    exact ⟨e, rfl, hline, hrefused, hbefore⟩
  · rw [hscan] at hline
    cases hline

end Offside
