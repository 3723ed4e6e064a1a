/-
Scanning a source inside a block.

Below a line that opens a block, and one unit deeper, a source has the same tokens at levels one
higher (`Row.raised`), and one dedent more before its last newline.
-/
import Offside.Proofs.Layout.Concatenation
import Offside.Proofs.Layout.RawBlock

set_option autoImplicit false

namespace Offside

open List Text Reading Row

/-! ## Texts line by line -/

namespace Text

def mapLines (f : Text → Text) (t : Text) : Text := join [lineEnd] ((pieces lineEnd t).map f)

@[elab_as_elim] theorem induction_on_lines {P : Text → Prop} (t : Text)
    (line : ∀ p, lineEnd ∉ p → P p) (more : ∀ p t, lineEnd ∉ p → P t → P (p ++ lineEnd :: t)) : P t := by
  have hall : ∀ (n : Nat) (t : Text), t.length ≤ n → P t := by
    intro n
    induction n with
    | zero =>
      intro t ht
      rw [length_eq_zero_iff.mp (Nat.le_zero.mp ht)]
      exact line [] not_mem_nil
    | succ n ih =>
      intro t ht
      by_cases hmem : lineEnd ∈ t
      · obtain ⟨p, rest, rfl, hp⟩ := eq_append_cons_of_mem hmem
        refine more p rest hp (ih rest ?_)
        rw [length_append, length_cons] at ht
        omega
      · exact line t hmem
  exact hall t.length t (Nat.le_refl _)

variable {f : Text → Text} {p : Text}

theorem mapLines_line (hp : lineEnd ∉ p) : mapLines f p = f p := by
  rw [mapLines, pieces_of_line hp]
  exact append_nil _

theorem mapLines_more (hp : lineEnd ∉ p) (t : Text) :
    mapLines f (p ++ lineEnd :: t) = f p ++ lineEnd :: mapLines f t := by
  rw [mapLines, mapLines, pieces_append, pieces_of_line hp]
  rcases hpieces : pieces lineEnd t with _ | ⟨q, qs⟩
  · exact absurd hpieces (pieces_ne_nil lineEnd t)
  · rw [singleton_append, map_cons, map_cons, join, join, intercalate_cons_cons,
      append_assoc]
    rfl

theorem pieces_join {lines : List Text} (hne : lines ≠ []) (hlines : ∀ l ∈ lines, lineEnd ∉ l) :
    pieces lineEnd (join [lineEnd] lines) = lines := by
  induction lines with
  | nil => exact absurd rfl hne
  | cons line lines ih =>
    obtain ⟨hline, hlines⟩ := forall_mem_cons.mp hlines
    rcases lines with _ | ⟨next, lines⟩
    · rw [join, intercalate_singleton, pieces_of_line hline]
    · have hrest := ih (cons_ne_nil _ _) hlines
      rw [join] at hrest ⊢
      rw [intercalate_cons_cons, append_assoc, singleton_append, pieces_append,
        pieces_of_line hline, hrest]
      rfl

def chomp (p : Text) : Text := if p.getLast? = some '\r'.toUInt8 then p.dropLast else p

theorem unifyLineEnds_line (hp : lineEnd ∉ p) : unifyLineEnds p = p := by
  induction p with
  | nil => rfl
  | cons b p ih =>
    rw [mem_cons, not_or] at hp
    rw [unifyLineEnds, if_neg, ih hp.2]
    rintro ⟨-, hhead⟩
    exact hp.2 (mem_of_mem_head? hhead)

theorem unifyLineEnds_more (hp : lineEnd ∉ p) (t : Text) :
    unifyLineEnds (p ++ lineEnd :: t) = chomp p ++ lineEnd :: unifyLineEnds t := by
  induction p with
  | nil =>
    rw [nil_append, unifyLineEnds, if_neg (fun h => absurd h.1 (by decide))]
    rfl
  | cons b p ih =>
    rw [mem_cons, not_or] at hp
    rw [cons_append, unifyLineEnds, ih hp.2]
    cases p with
    | nil =>
      by_cases hb : b = '\r'.toUInt8
      · rw [if_pos ⟨hb, rfl⟩, hb]
        rfl
      · have hnone : ([] : Text).getLast? ≠ some '\r'.toUInt8 := by simp
        rw [if_neg fun h => hb h.1, chomp, chomp, getLast?_singleton, if_neg hnone,
          if_neg fun h => hb (Option.some.inj h)]
        rfl
    | cons c p =>
      rw [mem_cons, not_or] at hp
      rw [if_neg fun h => hp.2.1 (Option.some.inj h.2).symm, chomp, chomp, getLast?_cons_cons]
      by_cases hlast : (c :: p).getLast? = some '\r'.toUInt8
      · rw [if_pos hlast, if_pos hlast]
        rfl
      · rw [if_neg hlast, if_neg hlast]
        rfl

theorem lines_line (hp : lineEnd ∉ p) : lines p = [p] := by
  rw [lines, unifyLineEnds_line hp]
  exact pieces_of_line hp

theorem not_mem_chomp (hp : lineEnd ∉ p) : lineEnd ∉ chomp p := by
  rw [chomp]
  split
  · exact fun hmem => hp (mem_of_mem_dropLast hmem)
  · exact hp

theorem lines_more (hp : lineEnd ∉ p) (t : Text) : lines (p ++ lineEnd :: t) = chomp p :: lines t := by
  have hpieces : ∀ s : Text, pieces '\n'.toUInt8 (chomp p ++ lineEnd :: s) =
      pieces lineEnd (chomp p) ++ pieces '\n'.toUInt8 s := fun s => pieces_append lineEnd _ s
  rw [lines, lines, unifyLineEnds_more hp, hpieces, pieces_of_line (not_mem_chomp hp)]
  rfl

/-- Lines can be changed one by one. -/
theorem lines_mapLines (hf : ∀ p, lineEnd ∉ p → lineEnd ∉ f p) (hchomp : ∀ p, chomp (f p) = f (chomp p))
    (t : Text) : lines (mapLines f t) = (lines t).map f := by
  induction t using induction_on_lines with
  | line p hp => rw [mapLines_line hp, lines_line (hf p hp), lines_line hp, map_singleton]
  | more p t hp ih =>
    rw [mapLines_more hp, lines_more (hf p hp), lines_more hp, ih, hchomp, map_cons]

end Text

/-! ## Deeper sources -/

namespace Reading

theorem content_chomp_isEmpty (line : Text) : (content (Text.chomp line)).isEmpty = (content line).isEmpty := by
  rw [Bool.eq_iff_iff, content_isEmpty_iff, content_isEmpty_iff, Text.chomp]
  split
  · next hlast =>
    obtain ⟨front, rfl⟩ := getLast?_eq_some_iff.mp hlast
    rw [dropLast_concat, forall_mem_append]
    exact ⟨fun h => ⟨h, forall_mem_singleton.mpr rfl⟩, And.left⟩
  · exact Iff.rfl

variable {unit : Text}

theorem chomp_deepened (rise : Nat) (line : Text) :
    Text.chomp (deepened unit rise line) = deepened unit rise (Text.chomp line) := by
  cases hblank : (content line).isEmpty with
  | true =>
    rw [deepened_of_blank rise hblank, deepened_of_blank rise (by rw [content_chomp_isEmpty]; exact hblank)]
  | false =>
    have hne : line ≠ [] := by
      rintro rfl
      cases hblank
    rw [deepened_of_content rise hblank,
      deepened_of_content rise (by rw [content_chomp_isEmpty]; exact hblank), Text.chomp, Text.chomp,
      getLast?_append_of_ne_nil _ hne]
    split
    · exact dropLast_append_of_ne_nil hne
    · rfl

theorem lineEnd_not_mem_deepened (hindent : unit.Leading) (rise : Nat) {line : Text}
    (hline : Text.lineEnd ∉ line) : Text.lineEnd ∉ deepened unit rise line := by
  rw [deepened]
  split
  · exact hline
  · rw [mem_append, not_or]
    refine ⟨fun hmem => ?_, hline⟩
    have hspace := leading_repeated hindent rise _ hmem
    revert hspace
    decide

end Reading

def Text.indented (unit source : Text) : Text := source.mapLines (deepened unit 1)

variable {unit : Text}

/-- The lines of an indented source are its lines, indented. -/
theorem Text.lines_indented (hindent : unit.Leading) (source : Text) :
    (indented unit source).lines = source.lines.map (deepened unit 1) :=
  lines_mapLines (f := deepened unit 1)
    (fun _ hp => lineEnd_not_mem_deepened hindent 1 hp) (chomp_deepened 1) source

/-! ## Tokens of deeper rows -/

def Token.raised (rise : Nat) (t : Token) : Token := { t with level := t.level + rise }

namespace Row

/-- The tokens are those of `init` and then the newline that ends the last row. No other newline
stands on its line, and one level deeper a dedent comes before it. -/
structure Deepens (ts deeper init : List Token) (row : Row) : Prop where
  tokens : ts = init ++ [row.marker .newline 0 0]
  deeper : deeper = init.map (Token.raised 1) ++ [row.marker .dedent 0 0, row.marker .newline 0 0]
  other : ∀ t ∈ init, t.is Marker.newline.text → t.line < row.line

theorem tokens_raised (row : Row) : (row.raised 1).tokens = row.tokens.map (Token.raised 1) := by
  cases row with
  | words line level ws =>
    have hword : ∀ w : Word, Word.tokens line (level + 1) w =
        (Word.tokens line level w).map (Token.raised 1) := by
      intro w
      rw [Word.tokens, Word.tokens]
      split
      · rfl
      · dsimp only
        split <;> rfl
      · rfl
      · rfl
    change ws.flatMap (Word.tokens line (level + 1)) = (ws.flatMap (Word.tokens line level)).map _
    rw [map_flatMap]
    exact flatMap_congr fun w _ => hword w
  | verbatim line level text => rfl

theorem marker_raised (row : Row) (m : Marker) (level : Nat) (depth : Int) :
    (row.raised 1).marker m (level + 1) depth = (row.marker m level depth).raised 1 := by
  rw [marker, marker, line_raised]
  rfl

theorem dedents_raised (row : Row) (level : Nat) :
    (row.raised 1).dedents (level + 1) = (row.dedents level).map (Token.raised 1) := by
  have hcount : row.level + 1 - (level + 1) = row.level - level := by omega
  rw [dedents, dedents, level_raised, hcount, map_map]
  refine map_congr_left fun i hi => ?_
  rw [mem_range] at hi
  have hlevel : row.level + 1 - 1 - i = row.level - 1 - i + 1 := by omega
  rw [Function.comp_apply, hlevel, marker_raised]

theorem closing_raised (row : Row) (level : Nat) :
    (row.raised 1).closing (level + 1) = (row.closing level).map (Token.raised 1) := by
  rw [closing_eq_dedents, closing_eq_dedents, dedents_raised, marker_raised, map_append]
  rfl

theorem between_raised (a b : Row) : (a.raised 1).between (b.raised 1) = (a.between b).map (Token.raised 1) := by
  rw [between, between, isVerbatim_raised, isVerbatim_raised, level_raised, level_raised]
  by_cases hverbatim : b.isVerbatim
  · rw [if_pos hverbatim, if_pos hverbatim, marker_raised]
    rfl
  rw [if_neg hverbatim, if_neg hverbatim]
  by_cases hlevel : b.level = a.level + 1
  · rw [if_pos hlevel, if_pos (by rw [hlevel]), marker_raised]
    rfl
  · rw [if_neg hlevel, if_neg (by omega), closing_raised]

theorem dedents_zero {row : Row} (h : row.level ≠ 0) : row.dedents 0 = row.dedents 1 ++ [row.marker .dedent 0 0] := by
  have hcount : row.level - 0 = row.level - 1 + 1 := by omega
  rw [dedents, dedents, hcount, range_succ, map_append, map_singleton, Nat.sub_self]

theorem deepens_closing (row : Row) : Deepens (row.closing 0) ((row.raised 1).closing 0) (row.dedents 0) row where
  tokens := closing_eq_dedents row 0
  deeper := by
    have hdeep : (row.raised 1).level ≠ 0 := by
      rw [level_raised]
      omega
    rw [closing_eq_dedents, dedents_zero hdeep, dedents_raised, append_assoc, marker, marker, line_raised]
    rfl
  other := by
    intro t ht hnewline
    cases Token.marker_unique hnewline (row.is_dedent_of_mem_dedents 0 t ht)

theorem Deepens.prepend {ts deeper init us : List Token} {row : Row} (h : Deepens ts deeper init row)
    (hus : ∀ t ∈ us, t.is Marker.newline.text → t.line < row.line) :
    Deepens (us ++ ts) (us.map (Token.raised 1) ++ deeper) (us ++ init) row where
  tokens := by rw [h.tokens, append_assoc]
  deeper := by rw [h.deeper, map_append, append_assoc]
  other := forall_mem_append.mpr ⟨hus, h.other⟩

theorem deepens_tokensAfter {a : Row} {rows : List Row} (hchain : (a :: rows).IsChain Below)
    (hsound : ∀ row ∈ rows, row.Sound) :
    ∃ init row, Deepens (tokensAfter a rows) (tokensAfter (a.raised 1) (rows.map (raised 1))) init row ∧
      a.line ≤ row.line := by
  induction rows generalizing a with
  | nil => exact ⟨_, a, deepens_closing a, Nat.le_refl _⟩
  | cons b rows ih =>
    obtain ⟨hbelow, hrest⟩ := isChain_cons_cons.mp hchain
    obtain ⟨hb, hrows⟩ := forall_mem_cons.mp hsound
    obtain ⟨init, row, hdeepens, hline⟩ := ih hrest hrows
    have hlt : a.line < row.line := Nat.lt_of_lt_of_le hbelow.1 hline
    refine ⟨a.between b ++ b.tokens ++ init, row, ?_, Nat.le_of_lt hlt⟩
    rw [map_cons, tokensAfter, tokensAfter, between_raised, tokens_raised, ← map_append]
    refine hdeepens.prepend fun t ht hnewline => ?_
    rcases mem_append.mp ht with ht | ht
    · -- The marker ends row `a`, which is above the last one.
      rw [(mem_between ht).1]
      exact Int.ofNat_lt.mpr hlt
    · rw [Token.is_eq_false_of_isMarker (hb.plain t ht) .newline] at hnewline
      cases hnewline

end Row

/-! ## A source below a line -/

/-- A line of code that a source can be put below. -/
structure Opening where
  line : Text
  words : List Word
  lineEnd : Text.lineEnd ∉ line
  chomp : Text.chomp line = line
  start : indentation line = []
  filled : (content line).isEmpty = false
  plain : Reading.opensRaw (content line) = false
  cut : Word.cut (content line) = .ok words

namespace Opening

def loop : Opening where
  line := ("while c:" : String)
  words := [⟨.name, "while"⟩, ⟨.gap, " "⟩, ⟨.name, "c"⟩, ⟨.symbol, ":"⟩]
  lineEnd := by decide
  chomp := rfl
  start := rfl
  filled := rfl
  plain := by decide +kernel
  cut := by decide +kernel

def function : Opening where
  line := ("function f():" : String)
  words := [⟨.name, "function"⟩, ⟨.gap, " "⟩, ⟨.name, "f"⟩, ⟨.symbol, "("⟩, ⟨.symbol, ")"⟩, ⟨.symbol, ":"⟩]
  lineEnd := by decide
  chomp := rfl
  start := rfl
  filled := rfl
  plain := by decide +kernel
  cut := by decide +kernel

variable (o : Opening)

def row : Row := .words 1 0 o.words

def tokens : List Token := o.row.tokens ++ [o.row.marker .indent 1 0]

def above (unit source : Text) : Text := o.line ++ Text.lineEnd :: indented unit source

end Opening

variable {source : Text}

namespace Reading

theorem readLine_opening (o : Opening) (hunit : unit.isEmpty = false) :
    readLine 1 o.line { unit := unit } = .ok () { unit := unit, rows := [o.row] } := by
  have hlevel : IsLevel unit (indentation o.line) 0 := by rw [o.start]; rfl
  rw [readLine_of_none rfl, o.filled, if_neg Bool.false_ne_true,
    readWords_of_known (s := { unit := unit }) hunit hlevel rfl o.cut, withWords, o.plain]
  rfl

theorem readLines_nested (o : Opening) {s : Reading} (hunit : unit.isEmpty = false)
    (hindent : unit.Leading) (hread : readLines 1 source.lines { unit := unit } = .ok () s) :
    ∃ rows t, readLines 1 (o.above unit source).lines { unit := unit } = .ok () t ∧ t.unit = s.unit ∧
      t.rows.reverse = o.row :: rows ∧
      rows.map Row.unplaced = (s.rows.reverse.map (Row.raised 1)).map Row.unplaced := by
  have hlines : (o.above unit source).lines = o.line :: source.lines.map (deepened unit 1) := by
    rw [← lines_indented hindent, Opening.above, lines_more o.lineEnd, o.chomp]
  have hroom : ∀ {level}, level = 0 → Fits (some o.row) (level + 1) := fun h => Nat.le_of_eq (congrArg Nat.succ h)
  have hafter : After 1 [] [o.row] { unit := unit } { unit := unit, rows := [o.row] } :=
    ⟨rfl, ⟨[], [], rfl, rfl, rfl⟩, .inl rfl, hroom⟩
  obtain ⟨t, hread', h⟩ := hafter.run 2 hunit hindent hread
  obtain ⟨rows, hrows, hunplaced⟩ := h.rows_eq
  refine ⟨rows.reverse, t, ?_, h.unit, ?_, ?_⟩
  · rw [hlines, readLines, bind_of_ok _ (readLine_opening o hunit)]
    exact hread'
  · rw [hrows, reverse_append]
    rfl
  · rw [map_reverse, hunplaced, map_map, map_reverse]
    rfl

end Reading

/-- Below an opening line a source is scanned to its own tokens, one level deeper. -/
theorem scan_nested (o : Opening) {scanned : Scanned} (hunit : unit.isEmpty = false)
    (hindent : unit.Leading)
    (hfilled : ∃ line ∈ source.lines, (content line).isEmpty = false)
    (h : (scan unit source).outcome = .ok scanned) :
    scanned.unit = unit ∧ ∃ ts deeper init row us, scanned.tokens = Row.start :: ts ∧
      Deepens ts deeper init row ∧ us.map Token.unplaced = deeper.map Token.unplaced ∧
      (scan unit (o.above unit source)).outcome = .ok ⟨unit, Row.start :: o.tokens ++ us⟩ := by
  obtain ⟨s, hread, rfl⟩ := scan_ok_iff.mp h
  have hor : Stream.unitOr s.unit = unit := by
    rw [readLines_unit hunit hread, unitOr_of_known hunit]
  obtain ⟨rows, t, hread', htunit, htrows, hunplaced⟩ := readLines_nested o hunit hindent hread
  have hlaid := (sound_of_readLines hread).rows.laid
  have hne : s.rows.reverse ≠ [] := by
    rw [Ne, reverse_eq_nil_iff]
    exact readLines_rows_ne_nil hread (.inr hfilled)
  obtain ⟨b, rest, hrows⟩ := exists_cons_of_ne_nil hne
  rw [hrows] at hlaid hunplaced ⊢
  obtain ⟨hb, hrest⟩ := forall_mem_cons.mp hlaid.sound
  obtain ⟨init, row, hdeepens, -⟩ := deepens_tokensAfter hlaid.chain hrest
  have hplain : ∀ v ∈ b.tokens, v.is Marker.newline.text → v.line < row.line := by
    intro v hv hnewline
    rw [Token.is_eq_false_of_isMarker (hb.plain v hv) .newline] at hnewline
    cases hnewline
  have hdeepens' := hdeepens.prepend hplain
  -- The first row below the line is the first one of the source.
  rcases rows with _ | ⟨b', rest'⟩
  · cases hunplaced
  rw [map_cons, map_cons, map_cons] at hunplaced
  obtain ⟨hb', hrest'⟩ := cons.inj hunplaced
  have hlevel : b'.level = 1 := by
    rw [← level_unplaced, hb', level_unplaced, level_raised, (hlaid.first b rfl).2.1]
  have hverbatim : b'.isVerbatim = false := by
    rw [← isVerbatim_unplaced, hb', isVerbatim_unplaced, isVerbatim_raised, (hlaid.first b rfl).1]
  have hbetween : o.row.between b' = [o.row.marker .indent 1 0] := by
    rw [between, hverbatim, if_neg Bool.false_ne_true, hlevel]
    rfl
  refine ⟨hor, _, _, _, row, b'.tokens ++ Row.tokensAfter b' rest', rfl, hdeepens', ?_, ?_⟩
  · rw [map_append, ← tokens_unplaced, hb', tokens_unplaced, ← tokensAfter_unplaced,
      hb', hrest', tokensAfter_unplaced, tokens_raised, ← map_append]
  · refine scan_ok_iff.mpr ⟨t, hread', ?_⟩
    rw [htunit, hor, htrows, allTokens, Row.tokensAfter, hbetween, Opening.tokens]
    simp only [append_assoc, cons_append]

end Offside
