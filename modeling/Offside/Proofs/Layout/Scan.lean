/-
Scanning gives tokens that are laid out.

Reading a line can do four things, listed in `Reading.Reads`. The state before the line decides
which, and everything about scanning follows from the list.
-/
import Mathlib.Data.List.TakeWhile
import Offside.Layout.Scan
import Offside.Proofs.Layout.Row
import Offside.Proofs.Outcome

set_option autoImplicit false

namespace Offside

open List Text Reading

variable {base level number : Nat} {line unit source : Text} {s s' : Reading} {scanned : Scanned}
  {block : RawBlock} {rest : List Text}
variable {m : Nat} {leading : Text} {words : List Word}

/-- A text that may lead a line. -/
abbrev Text.Leading (t : Text) : Prop := ∀ b ∈ t, isIndent b

namespace Reading

theorem leading_indentation (line : Text) : (indentation line).Leading := all_eq_true.mp all_takeWhile

/-! ## What reading a line can do -/

def unitAt (s : Reading) (line : Text) : Text :=
  if s.unit.isEmpty then indentation line else s.unit

def IsLevel (unit leading : Text) (level : Nat) : Prop :=
  if leading.isEmpty then level = 0 else levelIn? unit leading = some level

def Fits (above : Option Row) (level : Nat) : Prop :=
  match above with
  | none => level = 0
  | some row => level ≤ row.level + 1

inductive Reads (number : Nat) (line : Text) (s : Reading) : Reading → Prop
  | blank (hblank : (content line).isEmpty) (hraw : s.raw = none) : Reads number line s s
  | rawBlank {block : RawBlock} (hblank : (content line).isEmpty)
      (hraw : s.raw = some block) :
      Reads number line s { s with raw := some { block with blanks := block.blanks + 1 } }
  | rawLine {block : RawBlock} {text : Text} (hcontent : (content line).isEmpty = false)
      (hraw : s.raw = some block)
      (htext : rawText? (s.unitAt line) block.base line = some text) :
      Reads number line s { s with
        unit := s.unitAt line
        rows := .verbatim number (block.base + 1) (trimEnd isGap text) ::
          (blankRows number block).reverse ++ s.rows
        raw := some { block with started := true, blanks := 0 } }
  | words {level : Nat} {words : List Word} {detected : Option (Nat × Text)}
      (hcontent : (content line).isEmpty = false)
      (hraw : ∀ block, s.raw = some block → rawText? (s.unitAt line) block.base line = none)
      (hlevel : IsLevel (s.unitAt line) (indentation line) level)
      (hfits : Fits s.rows.head? level)
      (hwords : Word.cut (content line) = .ok words) :
      Reads number line s
        { unit := s.unitAt line
          detected := detected
          rows := .words number level words :: s.rows
          raw := if opensRaw (content line) then some { base := level } else none }

theorem unitAt_of_known (h : s.unit.isEmpty = false) (line : Text) : s.unitAt line = s.unit := by
  rw [unitAt, h]
  exact if_neg Bool.false_ne_true

theorem unitAt_isEmpty (h : (indentation line).isEmpty = false) : (s.unitAt line).isEmpty = false := by
  cases hunit : s.unit.isEmpty with
  | true =>
    rw [unitAt, hunit]
    exact h
  | false => rw [unitAt_of_known hunit, hunit]

theorem unitOr_of_known (h : unit.isEmpty = false) : Stream.unitOr unit = unit := by
  rw [Stream.unitOr, h]
  exact if_neg Bool.false_ne_true

theorem get_eq (s : Reading) : (get : Step Reading) s = .ok s s := rfl

/-- The level of a line of words, when the unit is known. -/
def levelWith (number : Nat) (unit leading : Text) : Step Nat :=
  match levelIn? unit leading with
  | some level => pure level
  | none => throw { line := number, text :=
      "inconsistent indentation " ++ leading.quoted ++ " (unit is " ++ unit.quoted ++ ")" }

theorem levelWith_ok_iff :
    levelWith number unit leading s = .ok level s' ↔ levelIn? unit leading = some level ∧ s' = s := by
  rw [levelWith]
  rcases levelIn? unit leading with _ | found
  · exact ⟨fun h => (nomatch h), fun h => (nomatch h.1)⟩
  · constructor
    · rintro ⟨⟩
      exact ⟨rfl, rfl⟩
    · rintro ⟨⟨⟩, rfl⟩
      rfl

theorem levelOf_eq (number : Nat) (s : Reading) (hindent : ¬ (indentation line).isEmpty) :
    levelOf number (indentation line) s = levelWith number (s.unitAt line) (indentation line) { s with
      unit := s.unitAt line
      detected := if s.unit.isEmpty then some (number, indentation line) else s.detected } := by
  rw [levelOf, if_neg hindent, bind_of_ok _ (get_eq s), unitAt]
  dsimp only
  by_cases hunit : s.unit.isEmpty
  · rw [if_pos hunit, if_pos hunit, if_pos hunit]
    rfl
  · rw [if_neg hunit, if_neg hunit, if_neg hunit]
    rfl

/-- A level is a number of units, and finding it may fix the unit. -/
theorem levelOf_ok (h : levelOf number (indentation line) s = .ok level s') :
    IsLevel (s.unitAt line) (indentation line) level ∧
      ∃ detected, s' = { s with unit := s.unitAt line, detected := detected } := by
  rw [IsLevel]
  by_cases hempty : (indentation line).isEmpty
  · rw [levelOf, if_pos hempty] at h
    cases h
    rw [if_pos hempty, unitAt]
    refine ⟨rfl, s.detected, ?_⟩
    by_cases hunit : s.unit.isEmpty
    · rw [if_pos hunit, List.isEmpty_iff.mp hempty, ← List.isEmpty_iff.mp hunit]
    · rw [if_neg hunit]
  · rw [levelOf_eq _ _ hempty] at h
    obtain ⟨hlevel, rfl⟩ := levelWith_ok_iff.mp h
    rw [if_neg hempty]
    exact ⟨hlevel, _, rfl⟩

/-- A level passes the check if it fits the row above. -/
theorem checkLevel_ok_iff : checkLevel number level s = .ok () s' ↔ Fits s.rows.head? level ∧ s' = s := by
  rw [checkLevel, bind_of_ok _ (get_eq s)]
  rcases s.rows.head? with _ | row
  · dsimp only [Fits]
    by_cases hzero : level = 0
    · rw [if_neg (not_not_intro hzero)]
      constructor
      · rintro ⟨⟩
        exact ⟨hzero, rfl⟩
      · rintro ⟨-, rfl⟩
        rfl
    · rw [if_pos hzero]
      exact ⟨fun h => (nomatch h), fun h => absurd h.1 hzero⟩
  · dsimp only [Fits]
    by_cases hjump : row.level + 1 < level
    · rw [if_pos hjump]
      exact ⟨fun h => (nomatch h), fun h => absurd h.1 (Nat.not_le_of_lt hjump)⟩
    · rw [if_neg hjump]
      constructor
      · rintro ⟨⟩
        exact ⟨Nat.le_of_not_lt hjump, rfl⟩
      · rintro ⟨-, rfl⟩
        rfl

theorem wordsOf_ok {margin : Nat} {text : Text} (h : wordsOf number margin text s = .ok words s') :
    Word.cut text = .ok words ∧ s' = s := by
  unfold wordsOf at h
  rcases hcut : Word.cut text with rest | found
  · rw [hcut] at h
    cases h
  · rw [hcut] at h
    cases h
    exact ⟨rfl, rfl⟩

/-- What reading a line of words does. -/
theorem readWords_ok (h : readWords number line s = .ok () s') :
    ∃ level words detected, IsLevel (s.unitAt line) (indentation line) level ∧
      Fits s.rows.head? level ∧ Word.cut (content line) = .ok words ∧
      s' = { unit := s.unitAt line
             detected := detected
             rows := .words number level words :: s.rows
             raw := if opensRaw (content line) then some { base := level } else none } := by
  rw [readWords] at h
  obtain ⟨level, _, hlevelOf, h⟩ := bind_ok h
  obtain ⟨hlevel, detected, rfl⟩ := levelOf_ok hlevelOf
  obtain ⟨_, _, hcheck, h⟩ := bind_ok h
  obtain ⟨hfits, rfl⟩ := checkLevel_ok_iff.mp hcheck
  obtain ⟨words, _, hwordsOf, h⟩ := bind_ok h
  obtain ⟨hwords, rfl⟩ := wordsOf_ok hwordsOf
  cases h
  exact ⟨level, words, detected, hlevel, hfits, hwords, rfl⟩

theorem readRaw_eq (s : Reading) (hcontent : (content line).isEmpty = false) : readRaw number line block s =
      match rawText? (s.unitAt line) block.base line with
      | some text => .ok true { s with
          unit := s.unitAt line
          rows := .verbatim number (block.base + 1) (trimEnd isGap text) ::
            (blankRows number block).reverse ++ s.rows
          raw := some { block with started := true, blanks := 0 } }
      | none => .ok false { s with unit := s.unitAt line, raw := none } := by
  rw [readRaw, if_neg (by rw [hcontent]; exact Bool.false_ne_true), unitAt]
  by_cases hunit : s.unit.isEmpty
  · rw [if_pos hunit]
    change (if s.unit.isEmpty = true then _ else _ : Step Bool) s = _
    rw [if_pos hunit]
    change (match rawText? (indentation line) block.base line with
      | some _ => _ | none => _ : Step Bool) _ = _
    rcases rawText? (indentation line) block.base line with _ | text <;> rfl
  · rw [if_neg hunit]
    change (if s.unit.isEmpty = true then _ else _ : Step Bool) s = _
    rw [if_neg hunit]
    change (match rawText? s.unit block.base line with
      | some _ => _ | none => _ : Step Bool) _ = _
    rcases rawText? s.unit block.base line with _ | text <;> rfl

theorem readLine_of_none (hraw : s.raw = none) : readLine number line s =
      if (content line).isEmpty then .ok () s else readWords number line s := by
  rcases s with ⟨unit, detected, raw, rows⟩
  cases hraw
  have hsplit : readLine number line ⟨unit, detected, none, rows⟩
      = (if !(content line).isEmpty then readWords number line else pure () : Step Unit)
        ⟨unit, detected, none, rows⟩ := rfl
  rw [hsplit]
  cases (content line).isEmpty <;> rfl

theorem readLine_of_some (hraw : s.raw = some block) : readLine number line s = if (content line).isEmpty then
        .ok () { s with raw := some { block with blanks := block.blanks + 1 } }
      else match rawText? (s.unitAt line) block.base line with
        | some text => .ok () { s with
            unit := s.unitAt line
            rows := .verbatim number (block.base + 1) (trimEnd isGap text) ::
              (blankRows number block).reverse ++ s.rows
            raw := some { block with started := true, blanks := 0 } }
        | none => readWords number line { s with unit := s.unitAt line, raw := none } := by
  have hsplit : readLine number line s = EStateM.bind (readRaw number line block) (fun b =>
      if b = true then pure ()
      else if !(content line).isEmpty then readWords number line else pure ()) s := by
    rcases s with ⟨unit, detected, raw, rows⟩
    cases hraw
    rfl
  rw [hsplit, EStateM.bind]
  cases hcontent : (content line).isEmpty with
  | true =>
    rw [readRaw, if_pos hcontent, if_pos rfl]
    rfl
  | false =>
    rw [readRaw_eq s hcontent, if_neg Bool.false_ne_true]
    rcases rawText? (s.unitAt line) block.base line with _ | text <;> rfl

theorem unitAt_unitAt (s : Reading) (line : Text) (raw : Option RawBlock) :
    unitAt { s with unit := s.unitAt line, raw := raw } line = s.unitAt line := by
  unfold unitAt
  by_cases hunit : s.unit.isEmpty
  · rw [if_pos hunit]
    exact ite_id _
  · rw [if_neg hunit]
    exact if_neg hunit

/-- Reading a line does one of the four things. -/
theorem readLine_ok (h : readLine number line s = .ok () s') : Reads number line s s' := by
  rcases hraw : s.raw with _ | block
  · rw [readLine_of_none hraw] at h
    by_cases hblank : (content line).isEmpty
    · rw [if_pos hblank] at h
      cases h
      exact .blank hblank hraw
    · rw [if_neg hblank] at h
      obtain ⟨level, words, detected, hlevel, hfits, hwords, rfl⟩ := readWords_ok h
      refine .words (by rwa [Bool.not_eq_true] at hblank) (fun block hblock => ?_) hlevel hfits hwords
      rw [hraw] at hblock
      cases hblock
  · rw [readLine_of_some hraw] at h
    by_cases hblank : (content line).isEmpty
    · rw [if_pos hblank] at h
      cases h
      exact .rawBlank hblank hraw
    · rw [if_neg hblank] at h
      rw [Bool.not_eq_true] at hblank
      rcases htext : rawText? (s.unitAt line) block.base line with _ | text
      · rw [htext] at h
        obtain ⟨level, words, detected, hlevel, hfits, hwords, rfl⟩ := readWords_ok h
        rw [unitAt_unitAt] at hlevel ⊢
        refine .words hblank (fun block' hblock => ?_) hlevel hfits hwords
        rw [hraw] at hblock
        cases hblock
        exact htext
      · rw [htext] at h
        cases h
        exact .rawLine hblank hraw htext

/-! ## Text -/

theorem not_isGap_of_content (h : (content line).isEmpty = false) : ∃ b ∈ content line, isGap b = false := by
  rw [content, trimEnd] at h ⊢
  have hne : (line.dropWhile isIndent).reverse.dropWhile isGap ≠ [] := by
    intro hnil
    rw [hnil] at h
    cases h
  refine ⟨_, mem_reverse.mpr (head_mem hne), ?_⟩
  exact head_dropWhile_not isGap hne

theorem content_isEmpty_iff : (content line).isEmpty ↔ ∀ b ∈ line, isGap b := by
  rw [content, trimEnd, List.isEmpty_iff, reverse_eq_nil_iff, dropWhile_eq_nil_iff]
  have hindent : ∀ b ∈ line.takeWhile isIndent, isGap b := by
    intro b hb
    rw [isGap, leading_indentation line b hb, Bool.true_or]
  constructor
  · intro h b hb
    rw [← takeWhile_append_dropWhile (p := isIndent) (l := line), mem_append] at hb
    rcases hb with hb | hb
    · exact hindent b hb
    · exact h b (mem_reverse.mpr hb)
  · intro h b hb
    exact h b ((dropWhile_sublist _).subset (mem_reverse.mp hb))

theorem repeated_isPrefix_of_le {n : Nat} (unit : Text) (h : m ≤ n) :
    repeated m unit <+: repeated n unit := by
  obtain ⟨k, rfl⟩ := Nat.exists_eq_add_of_le h
  rw [repeated, repeated, ← replicate_append_replicate, flatten_append]
  exact prefix_append _ _

/-- Indentation is its level times the unit. -/
theorem repeated_of_levelIn? (h : levelIn? unit leading = some level) : repeated level unit = leading := by
  rw [levelIn?] at h
  by_cases hr : repeated (leading.length / unit.length) unit = leading
  · rw [if_pos hr] at h
    cases h
    exact hr
  · rw [if_neg hr] at h
    cases h

/-- A line that does not start with the margin of a raw block is not deeper than its opener. -/
theorem level_le_base (hlevel : IsLevel (s.unitAt line) (indentation line) level)
    (hraw : rawText? (s.unitAt line) base line = none) : level ≤ base := by
  rw [IsLevel] at hlevel
  by_cases hempty : (indentation line).isEmpty
  · rw [if_pos hempty] at hlevel
    omega
  rw [if_neg hempty] at hlevel
  rw [rawText?, unitAt_isEmpty ((Bool.not_eq_true _).mp hempty), if_neg Bool.false_ne_true, after?] at hraw
  refine Nat.le_of_not_lt fun hdeep => ?_
  have hprefix : repeated (base + 1) (s.unitAt line) <+: line := by
    refine (repeated_isPrefix_of_le _ hdeep).trans ?_
    rw [repeated_of_levelIn? hlevel]
    exact List.takeWhile_prefix _
  rw [if_pos (List.isPrefixOf_iff_prefix.mpr hprefix)] at hraw
  cases hraw

/-! ## The state between lines -/

def RowOf (lines : List Text) (row : Row) : Prop :=
  ∀ number level words, row = .words number level words →
    ∃ line, lines[number - 1]? = some line ∧ Word.cut (content line) = .ok words

/-- Rows of a source, the latest first, when the next one is on line `number` or later. -/
structure Stacked (lines : List Text) (number : Nat) (rows : List Row) : Prop where
  pos : 1 ≤ number
  first : ∀ row ∈ rows.getLast?, row.IsFirst
  chain : rows.IsChain fun b a => Row.Below a b
  sound : ∀ row ∈ rows, row.Sound
  line : ∀ row ∈ rows, row.line < number
  source : ∀ row ∈ rows, RowOf lines row

/-- A raw block with this base can go on after the row: the row is in the block, or opened it. -/
def Continues (base : Nat) (row : Row) : Prop :=
  row.level = if row.isVerbatim then base + 1 else base

/-- The raw block that may go on is the one that the last row opened or belongs to. -/
def RawFits (raw : Option RawBlock) (last : Option Row) : Prop :=
  match raw with
  | none => ∀ row ∈ last, row.isVerbatim = false
  | some block => ∃ row ∈ last, row.isVerbatim = block.started ∧ Continues block.base row

def pending : Option RawBlock → Nat
  | none => 0
  | some block => if block.started then block.blanks else 0

/-- What holds before line `number` of a source. -/
structure Sound (lines : List Text) (number : Nat) (s : Reading) : Prop where
  rows : Stacked lines (number - pending s.raw) s.rows
  raw : RawFits s.raw s.rows.head?

variable {lines : List Text} {number : Nat} {rows : List Row} {s s' : Reading} {line : Text}

theorem Stacked.mono (h : Stacked lines number rows) (hle : number ≤ m) : Stacked lines m rows where
  pos := Nat.le_trans h.pos hle
  first := h.first
  chain := h.chain
  sound := h.sound
  line := fun row hrow => Nat.lt_of_lt_of_le (h.line row hrow) hle
  source := h.source

/-- One more row can be stacked if it fits the last. -/
theorem Stacked.cons {row : Row} (h : Stacked lines number rows) (hline : row.line = number)
    (hfirst : rows = [] → row.IsFirst) (hbelow : ∀ above ∈ rows.head?, Row.Below above row)
    (hsound : row.Sound) (hsource : RowOf lines row) : Stacked lines (number + 1) (row :: rows) where
  pos := Nat.le_add_left 1 number
  first := by
    rcases rows with _ | ⟨above, rows⟩
    · intro r hr
      cases hr
      exact hfirst rfl
    · rw [getLast?_cons_cons]
      exact h.first
  chain := List.IsChain.cons h.chain hbelow
  sound := forall_mem_cons.mpr ⟨hsound, h.sound⟩
  line := by
    refine forall_mem_cons.mpr ⟨by omega, fun r hr => ?_⟩
    have := h.line r hr
    omega
  source := forall_mem_cons.mpr ⟨hsource, h.source⟩

theorem sound_verbatim (number level : Nat) (text : Text) : (Row.verbatim number level text).Sound where
  plain := by
    intro t ht
    rw [mem_singleton.mp ht]
    exact Token.isMarker_of_raw rfl
  start := fun hv => nomatch hv

theorem Stacked.verbatim (h : Stacked lines number rows) (hlast : ∃ row ∈ rows.head?, Continues base row)
    (text : Text) : Stacked lines (number + 1) (.verbatim number (base + 1) text :: rows) := by
  obtain ⟨last, hlast, hcontinues⟩ := hlast
  refine h.cons rfl ?_ ?_ (sound_verbatim _ _ _) fun _ _ _ hwords => nomatch hwords
  · rintro rfl
    cases hlast
  · intro above habove
    obtain rfl : last = above := Option.mem_unique hlast habove
    refine ⟨h.line last (mem_of_mem_head? hlast), ?_⟩
    rw [Continues] at hcontinues
    cases hv : last.isVerbatim with
    | true => rw [hv] at hcontinues; exact hcontinues.symm
    | false => rw [hv] at hcontinues; exact congrArg (· + 1) hcontinues.symm

theorem Stacked.blanks (h : Stacked lines number rows) (hlast : ∃ row ∈ rows.head?, Continues base row) (k : Nat) :
    Stacked lines (number + k)
      (((List.range k).map fun i => Row.verbatim (number + i) (base + 1) []).reverse ++ rows) ∧
    ∃ row ∈ (((List.range k).map fun i => Row.verbatim (number + i) (base + 1) []).reverse ++
      rows).head?, Continues base row := by
  induction k with
  | zero => exact ⟨h, hlast⟩
  | succ k ih =>
    rw [range_succ, map_append, reverse_append, append_assoc]
    exact ⟨ih.1.verbatim ih.2 [], _, rfl, rfl⟩

/-- A raw line keeps the state sound. -/
theorem Sound.rawLine (h : s.Sound lines number) (hraw : s.raw = some block) (unit text : Text) :
    Sound lines (number + 1) { s with
      unit := unit
      rows := .verbatim number (block.base + 1) text :: (blankRows number block).reverse ++ s.rows
      raw := some { block with started := true, blanks := 0 } } := by
  have hfits := h.raw
  have hrows := h.rows
  rw [hraw] at hfits hrows
  obtain ⟨last, hlast, -, hcontinues⟩ := hfits
  refine ⟨?_, _, rfl, rfl, rfl⟩
  rw [blankRows]
  rw [pending] at hrows
  by_cases hstarted : block.started
  · rw [if_pos hstarted] at hrows ⊢
    have hpos := hrows.pos
    obtain ⟨hblanks, hhead⟩ := hrows.blanks ⟨last, hlast, hcontinues⟩ block.blanks
    have hnumber : number - block.blanks + block.blanks = number := by omega
    rw [hnumber] at hblanks
    exact hblanks.verbatim hhead text
  · rw [if_neg hstarted] at hrows ⊢
    exact hrows.verbatim ⟨last, hlast, hcontinues⟩ text

theorem sound_words (number : Nat) (hcontent : (content line).isEmpty = false)
    (hwords : Word.cut (content line) = .ok words) : (Row.words number level words).Sound where
  plain := by
    intro t ht
    obtain ⟨w, hw, ht⟩ := mem_flatMap.mp ht
    exact ((Word.cut_spec hwords).2 w hw).isMarker number level t ht
  start := fun _ => Word.flatMap_tokens_eq_cons hwords (not_isGap_of_content hcontent) number level

/-- A row of words that fits stands below the last row. -/
theorem Sound.below_words (words : List Word) (h : s.Sound lines number)
    (hraw : ∀ block, s.raw = some block → rawText? (s.unitAt line) block.base line = none)
    (hlevel : IsLevel (s.unitAt line) (indentation line) level) (hfits : Fits s.rows.head? level) :
    ∀ above ∈ s.rows.head?, Row.Below above (.words number level words) := by
  intro above habove
  have hline := h.rows.line above (mem_of_mem_head? habove)
  refine ⟨by change above.line < number; omega, ?_⟩
  have hrawFits := h.raw
  rcases hblock : s.raw with _ | block
  · rw [hblock] at hrawFits
    rw [hrawFits above habove]
    rw [habove] at hfits
    exact hfits
  · rw [hblock] at hrawFits
    obtain ⟨last, hlast, -, hcontinues⟩ := hrawFits
    obtain rfl : last = above := Option.mem_unique hlast habove
    have hbase := level_le_base hlevel (hraw block hblock)
    rw [Continues] at hcontinues
    cases hv : last.isVerbatim with
    | true =>
      rw [hv] at hcontinues
      change level < last.level
      rw [hcontinues]
      exact Nat.lt_succ_of_le hbase
    | false =>
      rw [hv] at hcontinues
      change level ≤ last.level + 1
      rw [hcontinues]
      exact Nat.le_succ_of_le hbase

/-- A line that is read keeps the state sound. -/
theorem Sound.step (h : s.Sound lines number) (hline : lines[number - 1]? = some line)
    (hreads : Reads number line s s') : s'.Sound lines (number + 1) := by
  cases hreads with
  | blank hblank hraw =>
    have hrows := h.rows
    rw [hraw] at hrows
    refine ⟨?_, h.raw⟩
    rw [hraw]
    exact hrows.mono (by rw [pending]; omega)
  | @rawBlank block hblank hraw =>
    have hfits := h.raw
    have hrows := h.rows
    rw [hraw] at hfits hrows
    refine ⟨hrows.mono ?_, hfits⟩
    -- In a block that has started, the line is one more that is pending.
    rw [pending, pending]
    dsimp only
    split <;> omega
  | rawLine hcontent hraw htext => exact h.rawLine hraw _ _
  | @words level words detected hcontent hraw hlevel hfits hwords =>
    have hbelow := h.below_words words hraw hlevel hfits
    have hrows := h.rows.mono (Nat.sub_le number _)
    have hcons : Stacked lines (number + 1) (.words number level words :: s.rows) := by
      refine hrows.cons rfl ?_ hbelow (sound_words number hcontent hwords) ?_
      · intro hnil
        rw [hnil] at hfits
        exact ⟨rfl, hfits, hrows.pos⟩
      · rintro _ _ _ ⟨⟩
        exact ⟨line, hline, hwords⟩
    by_cases hopens : opensRaw (content line)
    · rw [if_pos hopens]
      exact ⟨hcons, _, rfl, rfl, rfl⟩
    · rw [if_neg hopens]
      refine ⟨hcons, ?_⟩
      intro row hrow
      cases hrow
      rfl

/-! ## All lines -/

theorem readLines_cons (h : readLines number (line :: rest) s = .ok () s') :
    ∃ s₁, Reads number line s s₁ ∧ readLines (number + 1) rest s₁ = .ok () s' := by
  rw [readLines] at h
  obtain ⟨_, s₁, hline, hread⟩ := bind_ok h
  exact ⟨s₁, readLine_ok hline, hread⟩

/-- What each line keeps, all lines keep. -/
theorem readLines_keeps {I : Nat → Reading → Prop} {n : Nat}
    (hstep : ∀ {n line s s'}, lines[n]? = some line → I n s → Reads (n + 1) line s s' → I (n + 1) s')
    (hlines : rest <+: lines.drop n) (h : I n s) (hread : readLines (n + 1) rest s = .ok () s') :
    I (n + rest.length) s' := by
  induction rest generalizing s n with
  | nil =>
    cases hread
    exact h
  | cons line rest ih =>
    obtain ⟨s₁, hreads, hread⟩ := readLines_cons hread
    obtain ⟨after, hdrop⟩ := hlines
    have hget : lines[n]? = some line := by
      rw [← head?_drop, ← hdrop]
      rfl
    have hrest : rest <+: lines.drop (n + 1) := by
      rw [← tail_drop, ← hdrop]
      exact ⟨after, rfl⟩
    have hend := ih hrest (hstep hget h hreads) hread
    rwa [Nat.add_right_comm] at hend

/-- The same for an invariant that does not count lines. -/
theorem readLines_invariant {I : Reading → Prop} (hstep : ∀ {number line s s'}, I s → Reads number line s s' → I s')
    (h : I s) (hread : readLines number rest s = .ok () s') : I s' := by
  induction rest generalizing s number with
  | nil =>
    cases hread
    exact h
  | cons line rest ih =>
    obtain ⟨s₁, hreads, hread⟩ := readLines_cons hread
    exact ih (hstep h hreads) hread

theorem Reads.unit_cases (h : Reads number line s s') : s'.unit = s.unit ∨ s'.unit = indentation line := by
  have hunitAt : s.unitAt line = s.unit ∨ s.unitAt line = indentation line := by
    rw [unitAt]
    split
    · exact .inr rfl
    · exact .inl rfl
  cases h with
  | blank | rawBlank => exact .inl rfl
  | rawLine => exact hunitAt
  | words => exact hunitAt

theorem Reads.rows_ne_nil (h : Reads number line s s')
    (hrows : s.rows ≠ [] ∨ (content line).isEmpty = false) : s'.rows ≠ [] := by
  cases h with
  | blank hblank hraw | rawBlank hblank hraw => exact hrows.resolve_right (by rw [hblank]; exact Bool.noConfusion)
  | rawLine | words => exact cons_ne_nil _ _

theorem readLines_rows_ne_nil (hread : readLines number rest s = .ok () s')
    (hrows : s.rows ≠ [] ∨ ∃ line ∈ rest, (content line).isEmpty = false) : s'.rows ≠ [] := by
  induction rest generalizing s number with
  | nil =>
    cases hread
    exact hrows.resolve_right fun ⟨_, hline, _⟩ => nomatch hline
  | cons line rest ih =>
    obtain ⟨s₁, hreads, hread⟩ := readLines_cons hread
    refine ih hread ?_
    rcases hrows with hrows | ⟨l, hl, hcontent⟩
    · exact .inl (hreads.rows_ne_nil (.inl hrows))
    rcases mem_cons.mp hl with rfl | hl
    · exact .inl (hreads.rows_ne_nil (.inr hcontent))
    · exact .inr ⟨l, hl, hcontent⟩

theorem sound_start (lines : List Text) (unit : Text) : Sound lines 1 { unit := unit } where
  rows :=
    { pos := Nat.le_refl 1
      first := fun _ hrow => nomatch hrow
      chain := isChain_nil
      sound := fun _ hrow => nomatch hrow
      line := fun _ hrow => nomatch hrow
      source := fun _ hrow => nomatch hrow }
  raw := fun _ hrow => nomatch hrow

/-- The state behind the last line is sound. -/
theorem sound_of_readLines (h : readLines 1 lines { unit := unit } = .ok () s) : s.Sound lines (lines.length + 1) := by
  have hend := readLines_keeps (I := fun n s => s.Sound lines (n + 1)) (fun hline h hreads => h.step hline hreads)
    (prefix_refl lines) (sound_start lines unit) h
  rwa [Nat.zero_add] at hend

theorem Stacked.laid (h : Stacked lines number rows) : Row.Laid rows.reverse where
  first := by
    rw [head?_reverse]
    exact h.first
  chain := isChain_reverse.mpr h.chain
  sound := fun row hrow => h.sound row (mem_reverse.mp hrow)

end Reading

/-! ## Scanning -/

theorem Text.pieces_ne_nil (sep : UInt8) (t : Text) : t.pieces sep ≠ [] := by
  induction t with
  | nil => exact cons_ne_nil _ _
  | cons b t ih =>
    rw [pieces]
    split
    · exact cons_ne_nil _ _
    · split <;> exact cons_ne_nil _ _

/-- A source is scanned if its lines can be read. -/
theorem scan_ok_iff : (scan unit source).outcome = .ok scanned ↔
      ∃ s, readLines 1 source.lines { unit := unit } = .ok () s ∧
        scanned = ⟨Stream.unitOr s.unit, Row.allTokens s.rows.reverse⟩ := by
  rw [scan]
  rcases hread : (readLines 1 source.lines).run { unit := unit } with ⟨_, s⟩ | ⟨e, s⟩
  · have hread : readLines 1 source.lines { unit := unit } = .ok () s := hread
    rw [hread]
    constructor
    · rintro ⟨⟩
      exact ⟨s, rfl, rfl⟩
    · rintro ⟨_, ⟨⟩, rfl⟩
      rfl
  · have hread : readLines 1 source.lines { unit := unit } = .error e s := hread
    rw [hread]
    constructor
    · rintro ⟨⟩
    · rintro ⟨_, ⟨⟩, -⟩

/-- The tokens of a source are those of its rows. -/
theorem scan_rows (h : (scan unit source).outcome = .ok scanned) :
    ∃ rows, scanned.tokens = Row.allTokens rows ∧ Row.Laid rows ∧
      (∀ row ∈ rows, row.line ≤ source.lines.length ∧ Reading.RowOf source.lines row) ∧
      ((∃ line ∈ source.lines, (content line).isEmpty = false) → rows ≠ []) := by
  obtain ⟨s, hread, rfl⟩ := scan_ok_iff.mp h
  have hsound := sound_of_readLines hread
  refine ⟨s.rows.reverse, rfl, hsound.rows.laid, ?_, ?_⟩
  · intro row hrow
    rw [mem_reverse] at hrow
    have hline := hsound.rows.line row hrow
    exact ⟨by omega, hsound.rows.source row hrow⟩
  · intro hnonblank hnil
    exact readLines_rows_ne_nil hread (.inr hnonblank) (reverse_eq_nil_iff.mp hnil)

/-- The tokens of a source are laid out. -/
theorem laidOut_of_scan (h : (scan unit source).outcome = .ok scanned) :
    Token.LaidOut source.lines.length scanned.tokens := by
  obtain ⟨rows, htokens, hlaid, hrows, -⟩ := scan_rows h
  have hlines : 1 ≤ source.lines.length := length_pos_of_ne_nil (pieces_ne_nil _ _)
  rw [htokens]
  exact hlaid.laidOut hlines fun row hrow => (hrows row hrow).1

/-- What scanning guarantees about places: every token says where it stands, a source that is not
blank ends with a newline, and the only markers are those that stand between rows. -/
theorem scan_places {unit source : Text} {scanned : Scanned} (h : (scan unit source).outcome = .ok scanned) :
    Token.LaidOut source.lines.length scanned.tokens ∧ ((∃ line ∈ source.lines, ∃ b ∈ line, Text.isGap b = false) →
      ∃ t, scanned.tokens.getLast? = some t ∧ t.is Marker.newline.text = true) ∧
    ∃ rows, scanned.tokens = Row.allTokens rows ∧
      ∀ row ∈ rows, (∀ t ∈ row.tokens, t.isMarker = false) ∧ Reading.RowOf source.lines row := by
  obtain ⟨rows, htokens, hlaid, hrows, hnonblank⟩ := scan_rows h
  refine ⟨laidOut_of_scan h, ?_, rows, htokens, fun row hrow =>
    ⟨(hlaid.sound row hrow).plain, (hrows row hrow).2⟩⟩
  rintro ⟨line, hline, b, hb, hgap⟩
  obtain ⟨t, hlast, -, -, hnewline⟩ := Row.getLast?_allTokens rows
  refine ⟨t, by rw [htokens]; exact hlast, hnewline (hnonblank ⟨line, hline, ?_⟩)⟩
  rw [Bool.eq_false_iff]
  intro hempty
  rw [Reading.content_isEmpty_iff.mp hempty b hb] at hgap
  cases hgap

/-- A raw block whose only line spells a marker, below a comment sign. -/
theorem scan_places_raw_block : ∃ scanned, (scan [] ("#\n  <indent>\nx = 1\n" : String)).outcome = .ok scanned ∧
      Token.LaidOut 4 scanned.tokens := by
  have hok : (scan [] ("#\n  <indent>\nx = 1\n" : String)).outcome.toBool = true := by
    decide +kernel
  rcases hscan : (scan [] ("#\n  <indent>\nx = 1\n" : String)).outcome with e | scanned
  · rw [hscan] at hok
    cases hok
  · have hlines : (("#\n  <indent>\nx = 1\n" : String) : Text).lines.length = 4 := by
      decide +kernel
    refine ⟨scanned, rfl, ?_⟩
    rw [← hlines]
    exact (scan_places hscan).1

end Offside
