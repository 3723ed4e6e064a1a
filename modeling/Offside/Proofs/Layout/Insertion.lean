/-
More lines in the middle of a source.

When lines are put above a line of words, it and the lines below it are read as before if only it
may come next: its level must be known and must fit, and no raw block may take it.
-/
import Offside.Proofs.Layout.Opener
import Offside.Proofs.Layout.Verbatim

set_option autoImplicit false

namespace Offside

open List Text Reading Row Layout

/-! ## White space at the end of a text -/

variable {row : Row} {t : Text} {b : UInt8}
variable {n : Nat} {rest : Text}

namespace Symbol

theorem continuation?_append (hb : b < 0x80) (rest : Text) (i : Nat) :
    ((rest ++ [b])[i]? >>= continuation?) = (rest[i]? >>= continuation?) := by
  have hno : continuation? b = none := by
    rw [continuation?, if_neg]
    rintro ⟨hle, -⟩
    rw [UInt8.lt_iff_toNat_lt] at hb
    rw [UInt8.le_iff_toNat_le] at hle
    omega
  rcases Nat.lt_trichotomy i rest.length with hlt | rfl | hgt
  · rw [getElem?_append_left hlt]
  · rw [getElem?_concat_length, getElem?_eq_none (Nat.le_refl _)]
    exact hno
  · rw [getElem?_eq_none (by simp; omega), getElem?_eq_none (by omega)]

theorem decode?_append (hb : b < 0x80) (c : UInt8) (rest : Text) : decode? c (rest ++ [b]) = decode? c rest := by
  unfold decode?
  simp only [continuation?_append hb]

theorem le_length_of_decode? {c : Char} {more : Nat} (h : decode? b rest = some (c, more)) : more ≤ rest.length := by
  have hthere : ∀ {i n : Nat}, (rest[i]? >>= continuation?) = some n → i < rest.length := by
    intro i n hi
    by_contra hge
    rw [getElem?_eq_none (Nat.le_of_not_lt hge)] at hi
    cases hi
  unfold decode? at h
  split at h
  · cases h
    exact Nat.zero_le _
  split at h
  · obtain ⟨c₁, h₁, h⟩ := Option.bind_eq_some_iff.mp h
    obtain ⟨c, -, h⟩ := Option.bind_eq_some_iff.mp h
    cases h
    exact hthere h₁
  split at h
  · obtain ⟨c₁, h₁, h⟩ := Option.bind_eq_some_iff.mp h
    obtain ⟨c₂, h₂, h⟩ := Option.bind_eq_some_iff.mp h
    obtain ⟨c, -, h⟩ := Option.bind_eq_some_iff.mp h
    cases h
    exact hthere h₂
  split at h
  · obtain ⟨c₁, h₁, h⟩ := Option.bind_eq_some_iff.mp h
    obtain ⟨c₂, h₂, h⟩ := Option.bind_eq_some_iff.mp h
    obtain ⟨c₃, h₃, h⟩ := Option.bind_eq_some_iff.mp h
    obtain ⟨c, -, h⟩ := Option.bind_eq_some_iff.mp h
    cases h
    exact hthere h₃
  · cases h

end Symbol

namespace Text

theorem symbolsAfter_append (hb : b < 0x80) {skip : Nat} (hskip : skip ≤ t.length) :
    symbolsAfter skip (t ++ [b]) = symbolsAfter skip t ++ [.scalar (Char.ofNat b.toNat)] := by
  induction t generalizing skip with
  | nil =>
    obtain rfl := Nat.le_zero.mp hskip
    exact symbols_cons hb []
  | cons c t ih =>
    rw [cons_append]
    cases skip with
    | succ skip =>
      rw [symbolsAfter, symbolsAfter]
      exact ih (Nat.le_of_succ_le_succ hskip)
    | zero =>
      rw [symbolsAfter, symbolsAfter, Symbol.decode?_append hb]
      split
      · next more hdecode => rw [ih (Symbol.le_length_of_decode? hdecode), cons_append]
      · rw [ih (Nat.zero_le _), cons_append]

/-- A gap at the end does not survive trimming. -/
theorem trim_append_gap (hb : isGap b) (t : Text) : trim (t ++ [b]) = trim t := by
  obtain ⟨hascii, hblank⟩ := ascii_of_isGap b hb
  rw [trim, trim, symbols, symbolsAfter_append hascii (Nat.zero_le _), dropWhile_append]
  split
  · next hempty =>
    rw [symbols, List.isEmpty_iff.mp hempty, dropWhile_cons_of_pos hblank]
    rfl
  · rw [reverse_append, reverse_singleton, singleton_append, dropWhile_cons_of_pos hblank]
    rfl

theorem trim_trimEnd (t : Text) : trim (trimEnd isGap t) = trim t := by
  induction t using List.reverseRecOn with
  | nil => rfl
  | append_singleton t b ih =>
    by_cases hb : isGap b
    · rw [trimEnd_append (forall_mem_singleton.mpr hb), ih, trim_append_gap hb]
    · rw [trimEnd, reverse_append, reverse_singleton, singleton_append,
        dropWhile_cons_of_neg hb, reverse_cons, reverse_reverse]

theorem trim_ne_nil (h : ∃ c ∈ t.symbols, c.isBlank = false) : trim t ≠ [] := by
  obtain ⟨c, hc, hfilled⟩ := h
  have hkept : ∀ {cs : List Symbol}, c ∈ cs → c ∈ cs.dropWhile Symbol.isBlank := by
    intro cs hcs
    rw [← takeWhile_append_dropWhile (p := Symbol.isBlank) (l := cs), mem_append] at hcs
    refine hcs.resolve_left fun htake => ?_
    rw [mem_takeWhile_imp htake] at hfilled
    cases hfilled
  have hmem := mem_reverse.mpr (hkept (mem_reverse.mpr (hkept hc)))
  rw [trim]
  intro hnil
  exact bytes_ne_nil c (flatMap_eq_nil_iff.mp hnil c hmem)

theorem trim_eq_nil (h : ∀ c ∈ t.symbols, c.isBlank) : trim t = [] := by
  rw [trim, dropWhile_eq_nil_iff.mpr h]
  rfl

theorem trimEnd_append_of_ne_nil {p : UInt8 → Bool} {b : Text} (h : trimEnd p b ≠ []) (a : Text) :
    trimEnd p (a ++ b) = a ++ trimEnd p b := by
  rw [trimEnd] at h
  rw [trimEnd, trimEnd, reverse_append, dropWhile_append, if_neg, reverse_append, reverse_reverse]
  intro hempty
  exact h (by rw [List.isEmpty_iff.mp hempty]; rfl)

end Text

namespace Reading

open Layout (margin)

variable {unit line line' : Text} {lines : List Text} {number number' level : Nat} {above above' : List Row}
  {s s' t : Reading}

/-! ## A line of words that may come next -/

/-- A line of words with this indentation may come next, and is at this level. -/
structure Takes (leading : Text) (level : Nat) (s : Reading) : Prop where
  known : s.unit.isEmpty = false
  indent : s.unit.Leading
  isLevel : IsLevel s.unit leading level
  fits : Fits s.rows.head? level
  raw : ∀ block, s.raw = some block → ¬ margin s.unit block.base <+: leading

/-- A line of words that may come next is read. -/
theorem Takes.readLine {words : List Word} (h : s.Takes (indentation line) level) (number : Nat)
    (hcontent : (content line).isEmpty = false) (hwords : Word.cut (content line) = .ok words) :
    readLine number line s = .ok () (s.withWords number level words (content line)) := by
  have hunit := unitAt_of_known h.known line
  have hraw : ∀ block, s.raw = some block → rawText? (s.unitAt line) block.base line = none := by
    intro block hblock
    rw [hunit, rawText?_eq_none_iff h.known, margin, prefix_indentation_iff (leading_repeated h.indent _)]
    exact h.raw block hblock
  have hreads : Reads number line s { s.withWords number level words (content line) with unit := s.unitAt line } :=
    .words hcontent hraw (by rw [hunit]; exact h.isLevel) h.fits hwords
  rw [hreads.readLine_eq h.known, hunit]

/-- What was read as a line of words could come next. -/
theorem Reads.takes (h : Reads number line s s') (hknown : s.unit.isEmpty = false)
    (hindent : s.unit.Leading) (hcontent : (content line).isEmpty = false)
    (hraw : ∀ block, s.raw = some block → rawText? (s.unitAt line) block.base line = none) :
    ∃ level words, s.Takes (indentation line) level ∧ Word.cut (content line) = .ok words := by
  have hunit := unitAt_of_known hknown line
  cases h with
  | blank hblank =>
    rw [hcontent] at hblank
    cases hblank
  | rawBlank hblank =>
    rw [hcontent] at hblank
    cases hblank
  | rawLine _ hblock htext =>
    rw [hraw _ hblock] at htext
    cases htext
  | @words level words detected _ hraw hlevel hfits hwords =>
    rw [hunit] at hlevel
    refine ⟨level, words, ⟨hknown, hindent, hlevel, hfits, fun block hblock => ?_⟩, hwords⟩
    have hnone := hraw block hblock
    rw [hunit, rawText?_eq_none_iff hknown, margin,
      prefix_indentation_iff (leading_repeated hindent _)] at hnone
    exact hnone

/-- Another line with the same indentation may come next too, below rows that are deep enough and
unless a raw block is open that takes it. -/
theorem Takes.below {leading : Text} (h : s.Takes leading level) (hunit : t.unit = s.unit)
    (hrow : t.rows.head? = some row) (hlevel : level ≤ row.level + 1)
    (hraw : ∀ block, t.raw = some block → level ≤ block.base) : t.Takes leading level where
  known := by rw [hunit, h.known]
  indent := by rw [hunit]; exact h.indent
  isLevel := by rw [hunit]; exact h.isLevel
  fits := by rw [hrow]; exact hlevel
  raw := by
    intro block hblock hmargin
    have hlong := hmargin.length_le
    have hpos : 0 < t.unit.length := by
      rw [hunit]
      exact length_pos_of_ne_nil (isEmpty_eq_false_iff.mp h.known)
    have hlength : ∀ n, (repeated n t.unit).length = n * t.unit.length := by
      intro n
      simp [repeated, length_flatten]
    rw [margin, ← h.isLevel.repeated_eq, ← hunit, hlength, hlength] at hlong
    have hbase := Nat.le_of_mul_le_mul_right hlong hpos
    have hle := hraw block hblock
    omega

/-! ## Lines above a line of words -/

/-- Reading up to a line of words, and on from there. Whatever has been read above the line, if the
line may come next then it has the same row, and so have all lines below it. -/
theorem readLines_above {v : Text} {above below : List Text} (hknown : v.isEmpty = false)
    (hindent : v.Leading)
    (hread : readLines 1 (above ++ line :: below) { unit := v } = .ok () s')
    (hcontent : (content line).isEmpty = false)
    (hraw : ¬ IsRaw v (above ++ line :: below) above.length) :
    ∃ (level : Nat) (words : List Word) (r : Reading) (rows : List Row),
      readLines 1 above { unit := v } = .ok () r ∧ r.unit = v ∧
      r.Takes (indentation line) level ∧ Word.cut (content line) = .ok words ∧
      s'.rows = rows ++ .words (above.length + 1) level words :: r.rows ∧
      ∀ (q : Reading) (number : Nat), q.unit = v → q.Takes (indentation line) level →
        ∃ (t : Reading) (rows' : List Row), readLines number (line :: below) q = .ok () t ∧
          t.rows = rows' ++ .words number level words :: q.rows ∧
          rows'.map unplaced = rows.map unplaced := by
  rw [readLines_append] at hread
  obtain ⟨_, r, habove, hread⟩ := bind_ok hread
  have hunit : r.unit = v := readLines_unit hknown habove
  have hknown' : r.unit.isEmpty = false := by rw [hunit, hknown]
  rw [readLines] at hread
  obtain ⟨_, r₁, hline, hread⟩ := bind_ok hread
  -- The line is no raw one, so it has words.
  have hspans : r.Spans v (above ++ line :: below) above.length := by
    have hend := readLines_keeps (fun hline h hreads => h.step hline hreads)
      (prefix_append above (line :: below)) (spans_start hknown _) habove
    rwa [Nat.zero_add] at hend
  have hfilled : NonBlank (above ++ line :: below) above.length line := by
    refine ⟨?_, hcontent⟩
    rw [getElem?_append_right (Nat.le_refl _), Nat.sub_self]
    rfl
  obtain ⟨level, words, htakes, hwords⟩ := (readLine_ok hline).takes hknown' (by rw [hunit]; exact hindent) hcontent
    ((hspans.not_isRaw_iff hfilled).mp hraw)
  rw [htakes.readLine (1 + above.length) hcontent hwords] at hline
  cases hline
  have hnumber : 1 + above.length = above.length + 1 := Nat.add_comm _ _
  rw [hnumber] at hread
  -- All rows since the row of the line are alike.
  have hsince : ∀ (q : Reading) (number : Nat), q.unit = v →
      After 0 (.words (above.length + 1) level words :: r.rows) (.words number level words :: q.rows)
        (r.withWords (above.length + 1) level words (content line)) (q.withWords number level words (content line)) :=
    fun q number hq => ⟨hq.trans hunit.symm, ⟨[], [], rfl, rfl, rfl⟩, .inl (by dsimp only; split <;> rfl), id⟩
  rw [← hunit] at hindent
  obtain ⟨-, -, -, ⟨rows, -, hrows, -⟩, -, -⟩ := (hsince r 0 hunit).run 0 hknown' hindent hread
  refine ⟨level, words, r, rows, habove, hunit, htakes, hwords, hrows, fun q number hq hq' => ?_⟩
  obtain ⟨t, hread', -, ⟨own, rows', hsame, hrows', hunplaced⟩, -, -⟩ :=
    (hsince q number hq).run (number + 1) hknown' hindent hread
  rw [deepened_zero, map_id] at hread'
  simp only [raised_zero] at hunplaced
  refine ⟨t, rows', ?_, hrows', ?_⟩
  · rw [readLines, bind_of_ok _ (hq'.readLine number hcontent hwords)]
    exact hread'
  · rw [hunplaced, append_cancel_right (hrows.symm.trans hsame)]

theorem firstIndentation_append {above lines' : List Text} (h : firstIndentation lines' = firstIndentation lines) :
    firstIndentation (above ++ lines') = firstIndentation (above ++ lines) := by
  induction above with
  | nil => exact h
  | cons line above ih => rw [cons_append, cons_append, firstIndentation, firstIndentation, ih]

/-- A line indented as the one below it does not change the unit. -/
theorem learnedUnit_insert (hcontent : (content line).isEmpty = false) (hcontent' : (content line').isEmpty = false)
    (hsame : indentation line' = indentation line) (unit : Text) (above below : List Text) :
    learnedUnit unit (above ++ line' :: line :: below) = learnedUnit unit (above ++ line :: below) := by
  have hfirst : firstIndentation (line' :: line :: below) = firstIndentation (line :: below) := by
    rw [firstIndentation, firstIndentation, hcontent, hcontent', hsame]
    split
    · rfl
    · rfl
  rw [learnedUnit, learnedUnit, firstIndentation_append hfirst]

end Reading

/-! ## The line of a comment -/

namespace Word

/-- A comment takes its whole line. -/
theorem cut_comment (t : Text) : cut ('#'.toUInt8 :: t) = .ok [⟨.comment, '#'.toUInt8 :: t⟩] := by
  have hfirst : WordRule.first? ('#'.toUInt8 :: t) = some (.comment, t.length + 1) := rfl
  have hrest : cutAfter (t.length + 1 - 1) t = .ok [] := by
    rw [Nat.add_sub_cancel, cutAfter_eq_drop, drop_length]
    rfl
  rw [cut, cutAfter, hfirst]
  dsimp only
  rw [hrest]
  have htake : ('#'.toUInt8 :: t).take (t.length + 1) = '#'.toUInt8 :: t := take_of_length_le (Nat.le_refl _)
  dsimp only
  rw [htake]

end Word

namespace Layout

variable {line text : Text}

def commentSign (documents : Bool) : Text := if documents then "#." else "#"

theorem indentation_comment (line : Text) (documents : Bool) (rest : Text) :
    indentation (indentation line ++ (commentSign documents ++ rest)) = indentation line := by
  rw [indentation_append (leading_indentation line)]
  cases documents with
  | true | false => exact append_nil _

theorem content_comment (line : Text) (documents : Bool) (rest : Text) :
    content (indentation line ++ (commentSign documents ++ rest)) =
      trimEnd isGap (commentSign documents ++ rest) := by
  rw [content_append (leading_indentation line)]
  cases documents with
  | true => rfl
  | false => rfl

theorem content_comment_text (line : Text) (documents : Bool) (htext : trim text ≠ []) :
    content (indentation line ++ (commentSign documents ++ (" " ++ text))) =
      commentSign documents ++ (" " ++ trimEnd isGap text) := by
  have hne : trimEnd isGap text ≠ [] := by
    intro hnil
    rw [← trim_trimEnd, hnil] at htext
    exact htext rfl
  rw [content_comment, ← append_assoc, trimEnd_append_of_ne_nil hne, append_assoc]

theorem comment_filled (line : Text) (documents : Bool) (htext : trim text ≠ []) :
    (content (indentation line ++ (commentSign documents ++ (" " ++ text)))).isEmpty = false := by
  rw [content_comment_text line documents htext]
  cases documents with
  | true => rfl
  | false => rfl

theorem lineEnd_not_mem_comment (line : Text) (documents : Bool) (hrest : lineEnd ∉ rest) :
    lineEnd ∉ indentation line ++ (commentSign documents ++ rest) := by
  have hsign : lineEnd ∉ commentSign documents := by
    cases documents with
    | true => decide
    | false => decide
  rw [mem_append, mem_append]
  rintro (h | h | h)
  · cases leading_indentation line _ h
  · exact hsign h
  · exact hrest h

theorem trim_gap_trimEnd (text : Text) : trim (" " ++ trimEnd isGap text) = trim text := by
  have hgap : (" " ++ trimEnd isGap text : Text).dropWhile isGap =
      (trimEnd isGap text).dropWhile isGap := rfl
  rw [← trim_dropWhile, hgap, trim_dropWhile, trim_trimEnd]

/-- A comment with a text opens no raw block. -/
theorem not_opensRaw_comment (documents : Bool) (htext : trim text ≠ []) :
    opensRaw (commentSign documents ++ (" " ++ trimEnd isGap text)) = false := by
  have hbehind : ∀ rest', (" " ++ trimEnd isGap text : Text) = rest' →
      ¬ ∀ c ∈ symbols rest', c.isBlank := by
    rintro _ rfl hblank
    rw [← trim_gap_trimEnd, trim_eq_nil hblank] at htext
    exact htext rfl
  rw [Bool.eq_false_iff, opensRaw]
  intro hopens
  rw [contains_iff_mem] at hopens
  obtain ⟨sign, hsign, hpoint⟩ : ∃ sign, commentSign documents = '#'.toUInt8 :: sign ∧
      (sign = [] ∨ sign = ['.'.toUInt8]) := by
    cases documents <;> exact ⟨_, rfl, by decide⟩
  rw [hsign, cons_append] at hopens
  obtain ⟨rest', hrest, hblank⟩ := eq_trim_append (by decide) rfl (Word.ascii_of_opener hopens)
  simp only [mem_cons, not_mem_nil, or_false] at hopens
  rcases hopens with h | h | h | h <;> rw [h] at hrest
  · rcases hpoint with rfl | rfl
    · exact hbehind rest' (cons.inj hrest).2 hblank
    · -- The point of the sign would be white space.
      obtain rfl : '.'.toUInt8 :: (" " ++ trimEnd isGap text) = rest' := (cons.inj hrest).2
      rw [symbols_cons (by decide)] at hblank
      cases hblank _ mem_cons_self
  · rcases hpoint with rfl | rfl
    · cases (cons.inj (cons.inj hrest).2).1
    · exact hbehind rest' (cons.inj (cons.inj hrest).2).2 hblank
  · cases (cons.inj hrest).1
  · cases (cons.inj hrest).1

/-- A comment with a text has two tokens. -/
theorem tokens_comment (number level : Nat) (documents : Bool) (htext : trim text ≠ []) :
    Word.tokens number level ⟨.comment, commentSign documents ++ (" " ++ trimEnd isGap text)⟩ =
      [⟨commentSign documents, number, level, 0, false⟩, ⟨trim text, number, level, 0, true⟩] := by
  have hsign : Word.commentSign (commentSign documents ++ (" " ++ trimEnd isGap text)) =
      commentSign documents := by
    cases documents with
    | true => rfl
    | false => rfl
  rw [Word.tokens]
  dsimp only
  rw [hsign, drop_left, trim_gap_trimEnd, isEmpty_eq_false_iff.mpr htext, if_neg Bool.false_ne_true]

end Layout

/-! ## Tokens in front of a row -/

namespace Row

variable {row row' : Row} {rows after after' : List Row}

def tokensBefore (row : Row) : List Row → List Token
  | [] => [start]
  | a :: rows => a.tokensBefore rows ++ (a.tokens ++ a.between row)

theorem allTokens_reverse (rows : List Row) (row : Row) (after : List Row) :
    allTokens (rows.reverse ++ row :: after) = row.tokensBefore rows ++ (row.tokens ++ row.tokensAfter after) := by
  induction rows generalizing row after with
  | nil => rfl
  | cons a rows ih =>
    rw [reverse_cons, append_assoc, singleton_append, ih, tokensBefore, tokensAfter]
    simp only [append_assoc]

theorem tokensBefore_start (rows : List Row) (row : Row) : ∃ ts, row.tokensBefore rows = start :: ts := by
  induction rows generalizing row with
  | nil => exact ⟨[], rfl⟩
  | cons a rows ih =>
    obtain ⟨ts, hts⟩ := ih a
    exact ⟨ts ++ (a.tokens ++ a.between row), by rw [tokensBefore, hts, cons_append]⟩

theorem tokensBefore_congr (hv : row'.isVerbatim = row.isVerbatim) (hlevel : row'.level = row.level)
    (rows : List Row) : row'.tokensBefore rows = row.tokensBefore rows := by
  cases rows with
  | nil => rfl
  | cons a rows => rw [tokensBefore, tokensBefore, between, between, hv, hlevel]

theorem getLast?_between (a b : Row) : ∃ m ∈ (a.between b).getLast?, m.isMarker := by
  rw [between]
  split
  · exact ⟨_, rfl, Token.isMarker_of_mark (a.marker_is _ _ _)⟩
  split
  · exact ⟨_, rfl, Token.isMarker_of_mark (a.marker_is _ _ _)⟩
  · exact ⟨_, by rw [closing, getLast?_concat]; rfl, Token.isMarker_of_mark (a.marker_is _ _ _)⟩

theorem getLast?_tokensBefore (rows : List Row) (row : Row) :
    ∃ m ∈ (row.tokensBefore rows).getLast?, m.isMarker := by
  cases rows with
  | nil => exact ⟨_, rfl, rfl⟩
  | cons a rows =>
    obtain ⟨m, hm, hmarker⟩ := a.getLast?_between row
    refine ⟨m, ?_, hmarker⟩
    rw [tokensBefore, ← append_assoc]
    exact mem_getLast?_append_of_mem_getLast? hm

/-- Tokens before a row are the start or on rows before. -/
theorem mem_tokensBefore {t : Token} (ht : t ∈ row.tokensBefore rows) : t = start ∨ ∃ a ∈ rows, t.line = a.line := by
  induction rows generalizing row with
  | nil => exact .inl (mem_singleton.mp ht)
  | cons a rows ih =>
    rw [tokensBefore, mem_append, mem_append] at ht
    rcases ht with ht | ht | ht
    · exact (ih ht).imp_right fun ⟨b, hb, hline⟩ => ⟨b, mem_cons_of_mem _ hb, hline⟩
    · exact .inr ⟨a, mem_cons_self, (mem_tokens ht).2.1⟩
    · exact .inr ⟨a, mem_cons_self, (mem_between ht).1⟩

theorem tokens_unplaced_eq (hrow : row'.unplaced = row.unplaced) (hafter : after'.map unplaced = after.map unplaced) :
    (row'.tokens ++ row'.tokensAfter after').map Token.unplaced =
      (row.tokens ++ row.tokensAfter after).map Token.unplaced := by
  rw [map_append, map_append, ← tokens_unplaced row', ← tokens_unplaced row, ← tokensAfter_unplaced row',
    ← tokensAfter_unplaced row, hrow, hafter]

end Row

/-! ## A source with more lines -/

namespace Reading

/-- Reading the lines above leaves `r`, and the line comes next, with these words at this level. -/
structure Meets (v : Text) (above : List Text) (line : Text) (level : Nat) (words : List Word) (r : Reading) :
    Prop where
  read : readLines 1 above { unit := v } = .ok () r
  unit : r.unit = v
  takes : r.Takes (indentation line) level
  filled : (content line).isEmpty = false
  words : Word.cut (content line) = .ok words

end Reading

open Reading in
/-- A source, and the same source with more lines above a line of words. Whatever rows the lines
have, if the line may come behind them then it has the tokens that it had, and so have all lines
below it. -/
theorem scan_above {unit source line : Text} {above below : List Text} {scanned : Scanned}
    (hindent : unit.Leading) (hscan : (scan unit source).outcome = .ok scanned)
    (hsource : source.pieces lineEnd = above ++ line :: below) (hcontent : (content line).isEmpty = false)
    (hraw : ¬ IsRaw scanned.unit (above ++ line :: below) above.length) :
    scanned.unit = learnedUnit unit (above ++ line :: below) ∧
    ∃ (level : Nat) (words : List Word) (r : Reading) (row : Row) (after : List Row),
      Meets scanned.unit above line level words r ∧ row = .words (above.length + 1) level words ∧
      scanned.tokens = row.tokensBefore r.rows ++ (row.tokens ++ row.tokensAfter after) ∧
      ∀ (extra : List Text) (q : Reading), readLines (above.length + 1) extra r = .ok () q →
        q.Takes (indentation line) level → (∀ l ∈ extra, lineEnd ∉ l) →
        learnedUnit unit (above ++ (extra ++ line :: below)) = scanned.unit →
        ∃ back, (scan unit (join [lineEnd] (above ++ (extra ++ line :: below)))).outcome =
            .ok ⟨scanned.unit, row.tokensBefore q.rows ++ back⟩ ∧
          back.map Token.unplaced = (row.tokens ++ row.tokensAfter after).map Token.unplaced := by
  have hlearned := hscan
  rw [scan_learnedUnit hindent, scan_outcome (isIndent_of_mem_learnedUnit hindent _), hsource] at hlearned
  have hknown := learnedUnit_isEmpty unit (above ++ line :: below)
  have hindent' := isIndent_of_mem_learnedUnit hindent (above ++ line :: below)
  generalize hv : learnedUnit unit (above ++ line :: below) = v at hlearned hknown hindent'
  rcases hread : readLines 1 (above ++ line :: below) { unit := v } with ⟨_, s⟩ | ⟨e, s⟩
  · rw [hread] at hlearned
    obtain rfl := Except.ok.inj hlearned
    have hunit : s.unit = v := readLines_unit hknown hread
    have hunitOr : Stream.unitOr s.unit = v := by rw [hunit, unitOr_of_known hknown]
    dsimp only at hraw ⊢
    rw [hunitOr] at hraw ⊢
    -- The reading is cut at the line. Below it only the level counts that the line may have.
    obtain ⟨level, words, r, rows, habove, hr, htakes, hwords, hrows, hmore⟩ :=
      readLines_above hknown hindent' hread hcontent hraw
    refine ⟨rfl, level, words, r, _, rows.reverse, ⟨habove, hr, htakes, hcontent, hwords⟩, rfl, ?_, ?_⟩
    · rw [hrows, reverse_append, reverse_cons, append_assoc, singleton_append,
        allTokens_reverse]
    intro extra q hextra hq hwhole hunit'
    obtain ⟨t, rows', hread', hrows', hsame⟩ :=
      hmore q (above.length + 1 + extra.length) ((readLines_unit (by rw [hr, hknown]) hextra).trans hr) hq
    have hpieces : (join [lineEnd] (above ++ (extra ++ line :: below))).pieces lineEnd =
        above ++ (extra ++ line :: below) := by
      refine pieces_join (by simp) fun l hl => ?_
      have hold : ∀ l ∈ above ++ line :: below, lineEnd ∉ l := by
        intro l hl
        rw [← hsource] at hl
        exact not_mem_of_mem_pieces hl
      rw [mem_append, mem_append] at hl
      rcases hl with hl | hl | hl
      · exact hold l (mem_append_left _ hl)
      · exact hwhole l hl
      · exact hold l (mem_append_right _ hl)
    have hall : readLines 1 (above ++ (extra ++ line :: below)) { unit := v } = .ok () t := by
      rw [readLines_append, bind_of_ok _ habove, Nat.add_comm 1, readLines_append, bind_of_ok _ hextra]
      exact hread'
    have hafter : rows'.reverse.map unplaced = rows.reverse.map unplaced := by
      rw [map_reverse, map_reverse, hsame]
    have hbefore : (Row.words (above.length + 1 + extra.length) level words).tokensBefore q.rows =
        (Row.words (above.length + 1) level words).tokensBefore q.rows := by
      apply tokensBefore_congr
      · rfl
      · rfl
    refine ⟨(Row.words (above.length + 1 + extra.length) level words).tokens ++
      (Row.words (above.length + 1 + extra.length) level words).tokensAfter rows'.reverse, ?_,
      tokens_unplaced_eq rfl hafter⟩
    rw [scan_learnedUnit hindent, hpieces, hunit', scan_outcome hindent', hpieces, hall, outcome,
      readLines_unit hknown hall, unitOr_of_known hknown, hrows', reverse_append, reverse_cons,
      append_assoc, singleton_append, allTokens_reverse, hbefore]
  · rw [hread] at hlearned
    cases hlearned

namespace Reading

open Layout (commentSign)

variable {v line : Text} {above : List Text} {level : Nat} {words : List Word} {r : Reading}

namespace Meets

theorem sound (h : Meets v above line level words r) : r.Sound above (above.length + 1) :=
  sound_of_readLines h.read

theorem line_lt (h : Meets v above line level words r) {t : Token} (ht : t ∈ row.tokensBefore r.rows) :
    t = Row.start ∨ t.line < above.length + 1 := by
  refine (mem_tokensBefore ht).imp_right ?_
  rintro ⟨a, ha, hline⟩
  have hlt := h.sound.rows.line a ha
  rw [hline]
  omega

/-- The last of the rows is that of the last line that is not blank, unless this one is raw. -/
theorem head {m : Nat} {ws : List Word} (h : Meets v above line level words r)
    (hrow : r.rows.head? = some (.words m n ws)) :
    ∃ x, above.reverse.find? (fun x => !(content x).isEmpty) = some x ∧ IsLevel v (indentation x) n ∧
      Word.cut (content x) = .ok ws := by
  have hknown : v.isEmpty = false := by rw [← h.unit, h.takes.known]
  have hread := h.read
  clear h
  induction above using List.reverseRecOn generalizing r with
  | nil =>
    cases hread
    cases hrow
  | append_singleton above x ih =>
    rw [readLines_append] at hread
    obtain ⟨_, r₀, habove, hread⟩ := bind_ok hread
    obtain ⟨r₁, hreads, hread⟩ := readLines_cons hread
    cases hread
    have hunit : r₀.unitAt x = v := by
      have hr₀ : r₀.unit = v := readLines_unit hknown habove
      rw [unitAt_of_known (by rw [hr₀, hknown]), hr₀]
    rw [reverse_append, reverse_singleton, singleton_append]
    cases hreads with
    | blank hblank =>
      rw [find?_cons_of_neg (by rw [hblank]; exact Bool.false_ne_true)]
      exact ih hrow habove
    | rawBlank hblank =>
      rw [find?_cons_of_neg (by rw [hblank]; exact Bool.false_ne_true)]
      exact ih (r := r₀) hrow habove
    | rawLine => cases hrow
    | words hcontent _ hlevel _ hwords =>
      cases hrow
      rw [hunit] at hlevel
      exact ⟨x, find?_cons_of_pos (by rw [hcontent]; rfl), hlevel, hwords⟩

/-- A line indented as the one met may stand above it. -/
theorem above_words {line' : Text} {words' : List Word} (h : Meets v above line level words r) (number : Nat)
    (hsame : indentation line' = indentation line) (hcontent : (content line').isEmpty = false)
    (hwords : Word.cut (content line') = .ok words') :
    readLines number [line'] r = .ok () (r.withWords number level words' (content line')) := by
  have htakes := h.takes
  rw [← hsame] at htakes
  rw [readLines, bind_of_ok _ (htakes.readLine number hcontent hwords)]
  rfl

theorem comment {text : Text} (h : Meets v above line level words r) (number : Nat) (documents : Bool)
    (htext : trim text ≠ []) (row : Row) (hrow : row.isVerbatim = false ∧ row.level = level) :
    ∃ (q : Reading) (sign copied newline : Token),
      readLines number [indentation line ++ (commentSign documents ++ (" " ++ text))] r = .ok () q ∧
      q.Takes (indentation line) level ∧
      row.tokensBefore q.rows = row.tokensBefore r.rows ++ [sign, copied, newline] ∧
      (sign.text = commentSign documents ∧ sign.raw = false) ∧
      (copied.text = trim text ∧ copied.raw) ∧
      newline.is Marker.newline.text ∧ newline.level = level := by
  have hcontent := content_comment_text line documents htext
  have hcut : Word.cut (content (indentation line ++ (commentSign documents ++ (" " ++ text)))) =
      .ok [⟨.comment, commentSign documents ++ (" " ++ trimEnd isGap text)⟩] := by
    rw [hcontent]
    cases documents with
    | true => exact Word.cut_comment _
    | false => exact Word.cut_comment _
  have hread := h.above_words number (indentation_comment line documents _)
    (comment_filled line documents htext) hcut
  rw [hcontent, withWords, not_opensRaw_comment documents htext, if_neg Bool.false_ne_true] at hread
  -- Only the level of the row matters from here on.
  generalize hc : Row.words number level
    [⟨.comment, commentSign documents ++ (" " ++ trimEnd isGap text)⟩] = c at hread
  have hlevel : c.level = level := by rw [← hc]; rfl
  have hverbatim : c.isVerbatim = false := by rw [← hc]; rfl
  refine ⟨_, ⟨commentSign documents, number, level, 0, false⟩, ⟨trim text, number, level, 0, true⟩,
    c.marker .newline level 0, hread, ?_, ?_, ⟨rfl, rfl⟩, ⟨rfl, rfl⟩, c.marker_is _ _ _, rfl⟩
  · refine h.takes.below rfl rfl (by rw [hlevel]; omega) ?_
    rintro block ⟨⟩
  · have hbetween : c.between row = [c.marker .newline level 0] := by
      rw [Row.between, hrow.1, if_neg Bool.false_ne_true, hrow.2, hlevel, if_neg (by omega), closing, hlevel,
        Nat.sub_self]
      rfl
    have htokens : c.tokens = [⟨commentSign documents, number, level, 0, false⟩,
        ⟨trim text, number, level, 0, true⟩] := by
      rw [← hc, Row.tokens, flatMap_singleton, Layout.tokens_comment number level documents htext]
    rw [Row.tokensBefore, tokensBefore_congr (hverbatim.trans hrow.1.symm) (hlevel.trans hrow.2.symm), hbetween,
      htokens]
    rfl

end Meets

end Reading

end Offside
