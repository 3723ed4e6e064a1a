/-
Lines that are copied.

A raw block at the bottom of nested loops has a row for each line, whatever it spells. Blank lines
are held back until the next one comes, so nothing is lost unless the last line is blank or one ends
in a gap.
-/
import Offside.Proofs.Layout.Indented

set_option autoImplicit false

namespace Offside

open List Text Row Layout

/-! ## The source -/

variable {opener : Text} {words : List Word}
variable {ending : Text}

namespace Layout

open Reading (content)

def copied (unit : Text) (level : Nat) (line : Text) : Text :=
  if line.isEmpty then line else lineAt unit (level, line)

def copyOf (unit : Text) (level : Nat) (line : Text) : Text :=
  trimEnd isGap (line.drop (margin unit level).length)

/-- The text can be a line of a raw block, and nothing of it gets lost. -/
structure Copyable (text : Text) : Prop where
  line : lineEnd ∉ text
  last : ∀ b ∈ text.getLast?, isGap b = false

/-- A line with this text opens a raw block, and has these words. -/
structure Opener (text : Text) (words : List Word) : Prop where
  line : lineEnd ∉ text
  start : ∀ b ∈ text.head?, isIndent b = false
  opens : Reading.opensRaw (content text)
  words : Word.cut (content text) = .ok words

def rawSource (unit : Text) (depth : Nat) (opener : Text) (lines : List Text) : List Text :=
  (List.range depth).map (fun level => lineAt unit (level, ("while c:" : String))) ++
    lineAt unit (depth, opener) :: lines.map (copied unit (depth + 1))

variable {u line : Text} {lines : List Text} {level : Nat}

theorem copied_of_ne_nil (hline : line ≠ []) (u : Text) (level : Nat) :
    copied u level line = lineAt u (level, line) := by
  rw [copied, isEmpty_eq_false_iff.mpr hline, if_neg Bool.false_ne_true]

theorem Copyable.trimEnd_eq (h : Copyable line) : trimEnd isGap line = line := by
  rcases eq_nil_or_concat' line with rfl | ⟨front, b, rfl⟩
  · rfl
  · have hb : isGap b = false := h.last b (by simp)
    rw [trimEnd, reverse_append, reverse_singleton, singleton_append,
      dropWhile_cons_of_neg (by rw [hb]; exact Bool.false_ne_true), reverse_cons, reverse_reverse]

theorem copyOf_of_blank (h : (content line).isEmpty) : copyOf u level line = [] := by
  have hgaps : ∀ b ∈ line.drop (margin u level).length, isGap b :=
    fun b hb => Reading.content_isEmpty_iff.mp h b (mem_of_mem_drop hb)
  exact trimEnd_append hgaps []

theorem margin_prefix_copied (h : (content (copied u (level + 1) line)).isEmpty = false) :
    margin u level <+: copied u (level + 1) line := by
  by_cases hne : line = []
  · subst hne
    cases h
  · rw [copied_of_ne_nil hne]
    exact prefix_append _ _

/-- What is copied comes back. -/
theorem Copyable.copyOf_copied (h : Copyable line) (u : Text) (level : Nat) :
    copyOf u level (copied u (level + 1) line) = line := by
  by_cases hne : line = []
  · subst hne
    exact copyOf_of_blank rfl
  · rw [copied_of_ne_nil hne, copyOf, lineAt, margin, drop_left, h.trimEnd_eq]

theorem Copyable.content_ne_nil (h : Copyable line) (hline : line ≠ []) : (content line).isEmpty = false := by
  rcases eq_nil_or_concat' line with rfl | ⟨front, b, rfl⟩
  · exact absurd rfl hline
  · rw [Bool.eq_false_iff]
    intro hblank
    have hb : isGap b = false := h.last b (by simp)
    rw [Reading.content_isEmpty_iff.mp hblank b (by simp)] at hb
    cases hb

theorem Opener.content_ne_nil (h : Opener line words) : (content line).isEmpty = false := by
  rw [Bool.eq_false_iff]
  intro hempty
  have hopens := h.opens
  rw [List.isEmpty_iff.mp hempty] at hopens
  cases hopens

theorem pieces_rawSource (depth : Nat) (hindent : u.Leading) (hopener : Opener opener words)
    (hlines : ∀ line ∈ lines, Copyable line) (hending : ending = [] ∨ ending = [lineEnd]) :
    ∃ tail, (tail = [] ∨ tail = [[]]) ∧
      (join [lineEnd] (rawSource u depth opener lines) ++ ending).pieces lineEnd =
        rawSource u depth opener lines ++ tail := by
  have hlineAt : ∀ level text, lineEnd ∉ text → lineEnd ∉ lineAt u (level, text) := by
    intro level text htext
    rw [lineAt, mem_append, not_or]
    exact ⟨lineEnd_not_mem_repeated (lineEnd_not_mem_of_indent hindent) level, htext⟩
  have hwhole : ∀ line ∈ rawSource u depth opener lines, lineEnd ∉ line := by
    refine forall_mem_append.mpr ⟨?_, forall_mem_cons.mpr ⟨hlineAt depth opener hopener.line, ?_⟩⟩
    · intro line hline
      obtain ⟨level, -, rfl⟩ := mem_map.mp hline
      exact hlineAt level _ (by decide +kernel)
    · intro line hline
      obtain ⟨text, htext, rfl⟩ := mem_map.mp hline
      rw [copied]
      split
      · exact (hlines text htext).line
      · exact hlineAt _ text (hlines text htext).line
  have hne : rawSource u depth opener lines ≠ [] := append_ne_nil_of_right_ne_nil _ (cons_ne_nil _ _)
  rcases hending with rfl | rfl
  · exact ⟨[], .inl rfl, by rw [append_nil, append_nil, pieces_join hne hwhole]⟩
  · exact ⟨[[]], .inr rfl, by rw [pieces_append, pieces_join hne hwhole]; rfl⟩

end Layout

/-! ## Its rows -/

namespace Row

def HasWords (words : List Word) (level : Nat) (row : Row) : Prop := ∃ line, row = .words line level words

def Copies (level : Nat) (text : Text) (row : Row) : Prop := ∃ line, row = .verbatim line level text

def loopWords : List Word := [⟨.name, "while"⟩, ⟨.gap, " "⟩, ⟨.name, "c"⟩, ⟨.symbol, ":"⟩]

end Row

namespace Reading

open Layout (lineAt copied copyOf margin Copyable)

variable {u text line : Text} {lines : List Text} {words : List Word} {block : RawBlock} {number level : Nat}
  {s : Reading}

theorem readLine_lineAt (number : Nat) (hunit : s.unit = u) (hu : u.isEmpty = false)
    (hindent : u.Leading)
    (hstart : ∀ b ∈ text.head?, isIndent b = false) (hcontent : (content text).isEmpty = false)
    (hwords : Word.cut (content text) = .ok words) (hraw : s.raw = none) (hfits : Fits s.rows.head? level) :
    readLine number (lineAt u (level, text)) s = .ok () (s.withWords number level words (content text)) := by
  subst hunit
  have hsame := content_lineAt hindent (level, text)
  have hlevel : IsLevel s.unit (indentation (lineAt s.unit (level, text))) level := by
    rw [indentation_lineAt hindent hstart]
    exact isLevel_repeated hu level
  rw [readLine_of_none hraw, hsame, hcontent, if_neg Bool.false_ne_true,
    readWords_of_known hu hlevel hfits (by rw [hsame]; exact hwords), hsame]

/-- The lines of the loops become rows, each one level deeper. -/
theorem readLines_loops (count number level : Nat) (hunit : s.unit = u) (hu : u.isEmpty = false)
    (hindent : u.Leading) (hraw : s.raw = none) (hfits : Fits s.rows.head? level) :
    ∃ loops s', readLines number
        ((List.range' level count).map fun level => lineAt u (level, ("while c:" : String))) s = .ok () s' ∧
      s'.unit = u ∧ s'.raw = none ∧ s'.rows = loops.reverse ++ s.rows ∧
      Fits s'.rows.head? (level + count) ∧
      Forall₂ (Row.HasWords loopWords) (List.range' level count) loops := by
  induction count generalizing number level s with
  | zero => exact ⟨[], s, rfl, hunit, hraw, rfl, hfits, .nil⟩
  | succ count ih =>
    have hwords : Word.cut (content ("while c:" : String)) = .ok loopWords := by decide +kernel
    have hread := readLine_lineAt number hunit hu hindent (by decide +kernel) rfl hwords hraw hfits
    obtain ⟨loops, s', hrest, hunit', hraw', hrows', hfits', hloops⟩ :=
      ih (s := ⟨s.unit, s.detected, none, .words number level loopWords :: s.rows⟩)
        (number + 1) (level + 1) hunit rfl (Nat.le_refl _)
    refine ⟨.words number level loopWords :: loops, s', ?_, hunit', hraw', ?_, ?_, .cons ⟨number, rfl⟩ hloops⟩
    · rw [range'_succ, map_cons, readLines, bind_of_ok _ hread]
      exact hrest
    · rw [hrows', reverse_cons, append_assoc]
      rfl
    · rw [Nat.add_succ, ← Nat.succ_add]
      exact hfits'

/-! ### The raw block -/

theorem copies_blankRows (number : Nat) (block : RawBlock) :
    Forall₂ (Copies (block.base + 1)) (List.replicate (if block.started then block.blanks else 0) [])
      (blankRows number block) := by
  rw [blankRows]
  split
  · rw [← length_range (n := block.blanks), ← map_const', length_range, forall₂_map_left_iff,
      forall₂_map_right_iff, forall₂_same]
    exact fun i _ => ⟨_, rfl⟩
  · exact .nil

/-- A raw line becomes a row with its text, after the blank rows held back. -/
theorem readLine_raw (number : Nat) (hunit : s.unit = u) (hu : u.isEmpty = false)
    (hcontent : (content line).isEmpty = false) (hmargin : margin u block.base <+: line) (hraw : s.raw = some block) :
    readLine number line s = .ok () { s with
      rows := .verbatim number (block.base + 1) (copyOf u block.base line) :: (blankRows number block).reverse ++ s.rows
      raw := some { block with started := true, blanks := 0 } } := by
  subst hunit
  have htext : rawText? s.unit block.base line = some (line.drop (margin s.unit block.base).length) := by
    rw [rawText?, hu, if_neg Bool.false_ne_true, after?]
    exact if_pos (List.isPrefixOf_iff_prefix.mpr hmargin)
  rw [readLine_of_some hraw, hcontent, if_neg Bool.false_ne_true, unitAt_of_known hu, htext]
  rfl

/-- All lines of the block. The first one is not blank unless the block has started, and the last
one never is. -/
theorem readLines_raw (number : Nat) (lines : List Text) (hunit : s.unit = u) (hu : u.isEmpty = false)
    (hlines : ∀ line ∈ lines, (content line).isEmpty = false → margin u level <+: line)
    (hraw : s.raw = some block) (hbase : block.base = level)
    (hfirst : block.started ∨ ∀ line ∈ lines.head?, (content line).isEmpty = false)
    (hlast : ∀ line ∈ lines.getLast?, (content line).isEmpty = false) (hblanks : lines = [] → block.blanks = 0) :
    ∃ rows s' block', readLines number lines s = .ok () s' ∧ s'.unit = u ∧ s'.raw = some block' ∧
      block'.base = level ∧ s'.rows = rows.reverse ++ s.rows ∧
      Forall₂ (Copies (level + 1))
        (List.replicate (if block.started then block.blanks else 0) [] ++ lines.map (copyOf u level)) rows := by
  -- The blank lines that have been counted are those at the start of the list.
  induction lines generalizing number s block with
  | nil =>
    refine ⟨[], s, block, rfl, hunit, hraw, hbase, rfl, ?_⟩
    rw [hblanks rfl, ite_self]
    exact .nil
  | cons line lines ih =>
    obtain ⟨hline, hlines⟩ := forall_mem_cons.mp hlines
    have hlast' : ∀ last ∈ lines.getLast?, (content last).isEmpty = false := fun last hmem =>
      hlast last (mem_getLast?_cons hmem)
    cases hcontent : (content line).isEmpty with
    | true =>
      -- One more blank line is counted. Another line has to come, and so the count is not lost.
      have hstarted : block.started := by
        rcases hfirst with h | h
        · exact h
        · rw [h line rfl] at hcontent
          cases hcontent
      have hmore : lines ≠ [] := by
        rintro rfl
        rw [hlast line rfl] at hcontent
        cases hcontent
      have hread : readLine number line s =
          .ok () { s with raw := some { block with blanks := block.blanks + 1 } } := by
        rw [readLine_of_some hraw, if_pos hcontent]
      obtain ⟨rows, s', block', hrest, hunit', hraw', hbase', hrows', hcopies⟩ :=
        ih (s := { s with raw := some { block with blanks := block.blanks + 1 } }) (number + 1) hunit hlines rfl
          hbase (.inl hstarted) hlast' fun h => absurd h hmore
      refine ⟨rows, s', block', ?_, hunit', hraw', hbase', hrows', ?_⟩
      · rw [readLines, bind_of_ok _ hread]
        exact hrest
      · dsimp only at hcopies
        rw [hstarted, if_pos rfl, replicate_succ', append_assoc] at hcopies
        rw [hstarted, if_pos rfl, map_cons, copyOf_of_blank hcontent]
        exact hcopies
    | false =>
      have hread := readLine_raw number hunit hu hcontent (hbase ▸ hline hcontent) hraw
      obtain ⟨rows, s', block', hrest, hunit', hraw', hbase', hrows', hcopies⟩ :=
        ih (s := ⟨s.unit, s.detected, some { block with started := true, blanks := 0 },
            .verbatim number (block.base + 1) (copyOf u block.base line) :: (blankRows number block).reverse ++ s.rows⟩)
          (number + 1) hunit hlines rfl hbase (.inl rfl) hlast' fun _ => rfl
      refine ⟨blankRows number block ++ .verbatim number (block.base + 1) (copyOf u block.base line) :: rows, s',
        block',
        ?_, hunit', hraw', hbase', ?_, ?_⟩
      · rw [readLines, bind_of_ok _ hread]
        exact hrest
      · rw [hrows']
        simp
      · subst hbase
        exact rel_append (copies_blankRows number block) (.cons ⟨number, rfl⟩ hcopies)

/-- All lines of the block become rows with their texts. -/
theorem readLines_copied (number : Nat) (hunit : s.unit = u) (hu : u.isEmpty = false)
    (hindent : u.Leading) (hlines : ∀ line ∈ lines, Copyable line)
    (hraw : s.raw = some { base := level }) (hfirst : ∀ line ∈ lines.head?, line ≠ [])
    (hlast : ∀ line ∈ lines.getLast?, line ≠ []) :
    ∃ rows s', readLines number (lines.map (copied u (level + 1))) s = .ok () s' ∧
      s'.unit = u ∧ s'.raw.isSome ∧ s'.rows = rows.reverse ++ s.rows ∧
      Forall₂ (Copies (level + 1)) lines rows := by
  have hfilled : ∀ line ∈ lines, line ≠ [] → (content (copied u (level + 1) line)).isEmpty = false := by
    intro line hline hne
    rw [copied_of_ne_nil hne, content_lineAt hindent]
    exact (hlines line hline).content_ne_nil hne
  have hmargin : ∀ line ∈ lines.map (copied u (level + 1)), (content line).isEmpty = false →
      margin u level <+: line := by
    intro line hline hcontent
    obtain ⟨text, -, rfl⟩ := mem_map.mp hline
    exact margin_prefix_copied hcontent
  have hfirst' : ∀ line ∈ (lines.map (copied u (level + 1))).head?, (content line).isEmpty = false := by
    intro line hline
    rw [head?_map] at hline
    obtain ⟨text, htext, rfl⟩ := Option.map_eq_some_iff.mp hline
    exact hfilled text (mem_of_mem_head? htext) (hfirst text htext)
  have hlast' : ∀ line ∈ (lines.map (copied u (level + 1))).getLast?, (content line).isEmpty = false := by
    intro line hline
    rw [getLast?_map] at hline
    obtain ⟨text, htext, rfl⟩ := Option.map_eq_some_iff.mp hline
    exact hfilled text (mem_of_mem_getLast? htext) (hlast text htext)
  have hcopy : (lines.map (copied u (level + 1))).map (copyOf u level) = lines := by
    rw [map_map]
    exact (map_congr_left fun line hline => (hlines line hline).copyOf_copied u level).trans (map_id _)
  obtain ⟨rows, s', block', hread, hunit', hraw', -, hrows, hcopies⟩ :=
    readLines_raw number _ hunit hu hmargin hraw rfl (.inr hfirst') hlast' fun _ => rfl
  rw [hcopy] at hcopies
  exact ⟨rows, s', hread, hunit', by rw [hraw']; rfl, hrows, hcopies⟩

/-- The rows of the source: loops, opener, copied lines. -/
theorem readLines_rawSource (depth : Nat) (hu : u.isEmpty = false) (hindent : u.Leading)
    (hopener : Opener opener words) (hlines : ∀ line ∈ lines, Copyable line)
    (hfirst : ∀ line ∈ lines.head?, line ≠ []) (hlast : ∀ line ∈ lines.getLast?, line ≠ []) :
    ∃ loops row rows s, readLines 1 (Layout.rawSource u depth opener lines) { unit := u } = .ok () s ∧
      s.unit = u ∧ s.raw.isSome ∧ s.rows.reverse = loops ++ row :: rows ∧
      Forall₂ (Row.HasWords loopWords) (List.range depth) loops ∧ Row.HasWords words depth row ∧
      Forall₂ (Copies (depth + 1)) lines rows := by
  obtain ⟨loops, s₁, hloops, hunit₁, hraw₁, hrows₁, hfits₁, hhas⟩ :=
    readLines_loops (s := { unit := u }) depth 1 0 rfl hu hindent rfl rfl
  rw [← range_eq_range'] at hloops hhas
  rw [Nat.zero_add] at hfits₁
  -- The opener fits below the last loop, and the block is open after it.
  have hread := readLine_lineAt (1 + depth) hunit₁ hu hindent hopener.start hopener.content_ne_nil hopener.words hraw₁
    hfits₁
  rw [withWords, hopener.opens, if_pos rfl] at hread
  obtain ⟨rows, s₂, hcopied, hunit₂, hraw₂, hrows₂, hcopies⟩ :=
    readLines_copied (s := { s₁ with rows := .words (1 + depth) depth words :: s₁.rows, raw := some { base := depth } })
      (1 + depth + 1) hunit₁ hu hindent hlines rfl hfirst hlast
  refine ⟨loops, .words (1 + depth) depth words, rows, s₂, ?_, hunit₂, hraw₂, ?_, hhas, ⟨_, rfl⟩, hcopies⟩
  · rw [Layout.rawSource, readLines_append, bind_of_ok _ hloops, length_map, length_range, readLines,
      bind_of_ok _ hread]
    exact hcopied
  · rw [hrows₂, hrows₁]
    simp

end Reading

open Layout Reading in
/-- A raw block in loops has a row for each of its lines. It makes no difference whether the last
line is ended. -/
theorem scan_rawSource {u : Text} {lines : List Text} (depth : Nat) (hu : u.isEmpty = false)
    (hindent : u.Leading) (hopener : Opener opener words)
    (hlines : ∀ line ∈ lines, Copyable line) (hfirst : ∀ line ∈ lines.head?, line ≠ [])
    (hlast : ∀ line ∈ lines.getLast?, line ≠ []) (hending : ending = [] ∨ ending = [lineEnd]) : ∃ loops row rows,
      (scan u (join [lineEnd] (rawSource u depth opener lines) ++ ending)).outcome =
        .ok ⟨u, allTokens (loops ++ row :: rows)⟩ ∧
      Forall₂ (Row.HasWords loopWords) (List.range depth) loops ∧ Row.HasWords words depth row ∧
      Forall₂ (Copies (depth + 1)) lines rows := by
  obtain ⟨tail, htail, hpieces⟩ := pieces_rawSource depth hindent hopener hlines hending
  obtain ⟨loops, row, rows, s, hread, hunit, hraw, hrows, hrest⟩ :=
    readLines_rawSource depth hu hindent hopener hlines hfirst hlast
  refine ⟨loops, row, rows, ?_, hrest⟩
  obtain ⟨s', hend, hunit', hrows'⟩ : ∃ s', readLines (1 + (rawSource u depth opener lines).length) tail s = .ok () s' ∧
      s'.unit = s.unit ∧ s'.rows = s.rows := by
    rcases htail with rfl | rfl
    · exact ⟨s, rfl, rfl, rfl⟩
    · obtain ⟨block, hblock⟩ := Option.isSome_iff_exists.mp hraw
      exact ⟨_, bind_of_ok _ (readLine_of_some hblock), rfl, rfl⟩
  rw [scan_outcome hindent, hpieces, readLines_append, bind_of_ok _ hread, hend, outcome, hunit', hrows', hrows, hunit,
    unitOr_of_known hu]

end Offside
