/-
Scanning one source after another, and one source inside another.

With a fixed unit, a source that ends its last line and another one behind it have the tokens of
both. The second starts on the empty last line of the first, and its first line, which is not
indented, ends any raw block that is open.
-/
import Mathlib.Data.List.Forall2
import Offside.Proofs.Layout.Scan

set_option autoImplicit false

namespace Offside

open List Text Reading Row

/-! ## Lines of text -/

variable {level : Nat} {a unit leading : Text}

namespace Text

theorem unifyLineEnds_append (b : Text) (h : a.getLast? ≠ some '\r'.toUInt8) :
    unifyLineEnds (a ++ b) = unifyLineEnds a ++ unifyLineEnds b := by
  induction a with
  | nil => rfl
  | cons c a ih =>
    rcases a with _ | ⟨d, a⟩
    · have hc : c ≠ '\r'.toUInt8 := fun hc => h (by rw [hc]; rfl)
      rw [cons_append, unifyLineEnds, unifyLineEnds, if_neg fun hif => hc hif.1, if_neg fun hif => hc hif.1]
      rfl
    · rw [getLast?_cons_cons] at h
      have htail := ih h
      have hhead : (d :: a ++ b).head? = (d :: a).head? := rfl
      rw [cons_append, unifyLineEnds, unifyLineEnds.eq_2 c (d :: a), htail, hhead]
      by_cases hif : c = '\r'.toUInt8 ∧ (d :: a).head? = some '\n'.toUInt8
      · rw [if_pos hif, if_pos hif]
      · rw [if_neg hif, if_neg hif, cons_append]

theorem getLast?_unifyLineEnds (h : a.getLast? = some '\n'.toUInt8) :
    (unifyLineEnds a).getLast? = some '\n'.toUInt8 := by
  induction a with
  | nil => cases h
  | cons c a ih =>
    rw [unifyLineEnds]
    rcases a with _ | ⟨d, a⟩
    · cases h
      rfl
    · rw [getLast?_cons_cons] at h
      have htail := ih h
      split
      · exact htail
      · rw [getLast?_cons, htail]
        rfl

theorem pieces_append (sep : UInt8) (a b : Text) : pieces sep (a ++ sep :: b) = pieces sep a ++ pieces sep b := by
  induction a with
  | nil =>
    rw [nil_append, pieces.eq_2, if_pos rfl]
    rfl
  | cons c a ih =>
    rw [cons_append, pieces, pieces.eq_2 sep c a, ih]
    by_cases hc : c = sep
    · rw [if_pos hc, if_pos hc, cons_append]
    · rw [if_neg hc, if_neg hc]
      rcases hp : pieces sep a with _ | ⟨piece, others⟩
      · exact absurd hp (pieces_ne_nil sep a)
      · rfl

theorem pieces_of_line {sep : UInt8} {p : Text} (hp : sep ∉ p) : pieces sep p = [p] := by
  induction p with
  | nil => rfl
  | cons b p ih =>
    rw [mem_cons, not_or] at hp
    rw [pieces, if_neg (Ne.symm hp.1), ih hp.2]

theorem lines_append (h : a = [] ∨ a.getLast? = some '\n'.toUInt8) :
    ∃ before, a.lines = before ++ [[]] ∧ ∀ b : Text, (a ++ b).lines = before ++ b.lines := by
  rcases h with rfl | h
  · exact ⟨[], rfl, fun b => rfl⟩
  obtain ⟨c, hc⟩ := getLast?_eq_some_iff.mp (getLast?_unifyLineEnds h)
  have hr : a.getLast? ≠ some '\r'.toUInt8 := by
    rw [h]
    decide
  refine ⟨pieces '\n'.toUInt8 c, ?_, fun b => ?_⟩
  · rw [lines, hc, pieces_append]
    rfl
  · rw [lines, unifyLineEnds_append b hr, hc, append_assoc]
    exact pieces_append _ c _

end Text

/-! ## Tokens and rows without their lines -/

namespace Token

def unplaced (t : Token) : Token := { t with line := 0 }

theorem unplaced_eq_iff {t u : Token} : u.unplaced = t.unplaced ↔ ∃ line, u = { t with line := line } := by
  constructor
  · intro h
    rcases t with ⟨text, line, level, depth, raw⟩
    rcases u with ⟨text', line', level', depth', raw'⟩
    cases h
    exact ⟨line', rfl⟩
  · rintro ⟨line, rfl⟩
    rfl

theorem forall₂_of_unplaced {ts us : List Token} (h : us.map unplaced = ts.map unplaced) :
    Forall₂ (fun t u => ∃ line, u = { t with line := line }) ts us := by
  have heq : Forall₂ Eq (ts.map unplaced) (us.map unplaced) := by
    rw [h]
    exact forall₂_same.mpr fun _ _ => rfl
  rw [forall₂_map_left_iff, forall₂_map_right_iff] at heq
  exact heq.imp fun t u htu => unplaced_eq_iff.mp htu.symm

end Token

namespace Row

def unplaced : Row → Row
  | words _ level ws => words 0 level ws
  | verbatim _ level text => verbatim 0 level text

@[simp] theorem level_unplaced (row : Row) : row.unplaced.level = row.level := by cases row <;> rfl

@[simp] theorem isVerbatim_unplaced (row : Row) : row.unplaced.isVerbatim = row.isVerbatim := by
  cases row <;> rfl

def raised (rise : Nat) : Row → Row
  | words line level ws => words line (level + rise) ws
  | verbatim line level text => verbatim line (level + rise) text

@[simp] theorem level_raised (rise : Nat) (row : Row) : (row.raised rise).level = row.level + rise := by
  cases row <;> rfl

@[simp] theorem line_raised (rise : Nat) (row : Row) : (row.raised rise).line = row.line := by
  cases row <;> rfl

@[simp] theorem isVerbatim_raised (rise : Nat) (row : Row) : (row.raised rise).isVerbatim = row.isVerbatim := by
  cases row <;> rfl

@[simp] theorem raised_zero (row : Row) : row.raised 0 = row := by cases row <;> rfl

theorem tokens_unplaced (row : Row) : row.unplaced.tokens.map Token.unplaced = row.tokens.map Token.unplaced := by
  cases row with
  | words line level ws =>
    have hword : ∀ w : Word, (Word.tokens 0 level w).map Token.unplaced
        = (Word.tokens line level w).map Token.unplaced := by
      intro w
      rw [Word.tokens, Word.tokens]
      split
      · rfl
      · dsimp only
        split <;> rfl
      · rfl
      · rfl
    change (ws.flatMap (Word.tokens 0 level)).map Token.unplaced = (ws.flatMap _).map Token.unplaced
    rw [map_flatMap, map_flatMap]
    exact flatMap_congr fun w _ => hword w
  | verbatim line level text => rfl

theorem closing_unplaced (row : Row) (level : Nat) :
    (row.unplaced.closing level).map Token.unplaced = (row.closing level).map Token.unplaced := by
  rw [closing, closing, map_append, map_append, map_map, map_map, level_unplaced]
  rfl

theorem between_unplaced (a b : Row) :
    (a.unplaced.between b.unplaced).map Token.unplaced = (a.between b).map Token.unplaced := by
  rw [between, between, isVerbatim_unplaced, isVerbatim_unplaced, level_unplaced, level_unplaced]
  by_cases hverbatim : b.isVerbatim
  · rw [if_pos hverbatim, if_pos hverbatim]
    rfl
  rw [if_neg hverbatim, if_neg hverbatim]
  by_cases hlevel : b.level = a.level + 1
  · rw [if_pos hlevel, if_pos hlevel]
    rfl
  · rw [if_neg hlevel, if_neg hlevel]
    exact closing_unplaced a b.level

theorem tokensAfter_unplaced (a : Row) (rows : List Row) :
    (tokensAfter a.unplaced (rows.map unplaced)).map Token.unplaced
      = (tokensAfter a rows).map Token.unplaced := by
  induction rows generalizing a with
  | nil => exact closing_unplaced a 0
  | cons b rows ih =>
    rw [map_cons, tokensAfter, tokensAfter, map_append, map_append, map_append,
      map_append, between_unplaced, tokens_unplaced, ih]

theorem allTokens_unplaced (rows : List Row) :
    (allTokens (rows.map unplaced)).map Token.unplaced = (allTokens rows).map Token.unplaced := by
  rcases rows with _ | ⟨row, rows⟩
  · rfl
  · rw [map_cons, allTokens, allTokens, map_append, map_append, map_cons,
      map_cons, tokens_unplaced, tokensAfter_unplaced]

theorem tokensAfter_append {b : Row} (a : Row) (rows rows' : List Row) (hb : b.isVerbatim = false ∧ b.level = 0) :
    tokensAfter a (rows ++ b :: rows') = tokensAfter a rows ++ (b.tokens ++ tokensAfter b rows') := by
  induction rows generalizing a with
  | nil =>
    have hbetween : a.between b = a.closing 0 := by
      rw [between, hb.1, if_neg Bool.false_ne_true, hb.2, if_neg (by omega)]
    rw [nil_append, tokensAfter, tokensAfter, hbetween, append_assoc]
  | cons c rows ih =>
    rw [cons_append, tokensAfter, tokensAfter, ih, append_assoc, append_assoc, append_assoc]

/-- Rows that start at level zero can be put behind any others. -/
theorem allTokens_append {rows rows' : List Row} (h : ∀ row ∈ rows'.head?, row.isVerbatim = false ∧ row.level = 0) :
    allTokens (rows ++ rows') = allTokens rows ++ (allTokens rows').tail := by
  rcases rows' with _ | ⟨b, rows'⟩
  · rw [append_nil]
    exact (append_nil _).symm
  rcases rows with _ | ⟨a, rows⟩
  · rfl
  · rw [cons_append, allTokens, tokensAfter_append a rows rows' (h b rfl), allTokens, allTokens,
      append_assoc]
    rfl

end Row

def RawBlock.raised (rise : Nat) (block : RawBlock) : RawBlock :=
  { block with base := block.base + rise }

namespace Reading

variable {number : Nat} {line : Text} {lines : List Text} {above : List Row} {s s' t t' : Reading}

/-! ## Lines with a known unit -/

theorem levelOf_of_known (hunit : s.unit.isEmpty = false) (h : IsLevel s.unit (indentation line) level) :
    levelOf number (indentation line) s = .ok level s := by
  rw [IsLevel] at h
  by_cases hempty : (indentation line).isEmpty
  · rw [if_pos hempty] at h
    rw [levelOf, if_pos hempty, h]
    rfl
  · rw [if_neg hempty] at h
    rw [levelOf_eq _ _ hempty, unitAt_of_known hunit, hunit, if_neg Bool.false_ne_true]
    exact levelWith_ok_iff.mpr ⟨h, rfl⟩

/-- What is read with a line of words below it, the words of `text`. -/
abbrev withWords (s : Reading) (number level : Nat) (words : List Word) (text : Text) : Reading :=
  { s with
    rows := .words number level words :: s.rows
    raw := if opensRaw text then some { base := level } else none }

theorem readWords_of_known {words : List Word} (hunit : s.unit.isEmpty = false)
    (hlevel : IsLevel s.unit (indentation line) level) (hfits : Fits s.rows.head? level)
    (hwords : Word.cut (content line) = .ok words) :
    readWords number line s = .ok () (s.withWords number level words (content line)) := by
  rw [readWords, bind_of_ok _ (levelOf_of_known hunit hlevel), bind_of_ok _ (checkLevel_ok_iff.mpr ⟨hfits, rfl⟩)]
  have hcut : wordsOf number (indentation line).length (content line) s = .ok words s := by
    rw [wordsOf, hwords]
    rfl
  rw [bind_of_ok _ hcut]
  rfl

theorem Reads.readLine_eq (h : Reads number line s s') (hunit : s.unit.isEmpty = false) :
    readLine number line s = .ok () { s' with detected := s.detected } := by
  cases h with
  | blank hblank hraw => rw [readLine_of_none hraw, if_pos hblank]
  | rawBlank hblank hraw => rw [readLine_of_some hraw, if_pos hblank]
  | rawLine hcontent hraw htext =>
    rw [readLine_of_some hraw, hcontent, if_neg Bool.false_ne_true, htext]
  | words hcontent hraw hlevel hfits hwords =>
    have hknown := unitAt_of_known hunit line
    rw [hknown] at hlevel ⊢
    rcases hblock : s.raw with _ | block
    · rw [readLine_of_none hblock, hcontent, if_neg Bool.false_ne_true, readWords_of_known hunit hlevel hfits hwords]
    · rw [readLine_of_some hblock, hcontent, if_neg Bool.false_ne_true, hraw block hblock, hknown]
      dsimp only
      exact readWords_of_known (s := { s with raw := none }) hunit hlevel hfits hwords

theorem Reads.unit_eq (h : Reads number line s s') (hunit : s.unit.isEmpty = false) : s'.unit = s.unit := by
  have hknown := unitAt_of_known hunit line
  cases h with
  | blank => rfl
  | rawBlank => rfl
  | rawLine => exact hknown
  | words => exact hknown

/-! ## Deeper lines -/

def deepened (unit : Text) (rise : Nat) (line : Text) : Text :=
  if (content line).isEmpty then line else repeated rise unit ++ line

theorem deepened_of_blank (rise : Nat) (h : (content line).isEmpty) :
    deepened unit rise line = line := if_pos h

theorem deepened_of_content (rise : Nat) (h : (content line).isEmpty = false) :
    deepened unit rise line = repeated rise unit ++ line := by
  rw [deepened, h, if_neg Bool.false_ne_true]

@[simp] theorem deepened_zero (unit : Text) : deepened unit 0 = id := by
  funext line
  exact ite_id line

theorem leading_repeated (hindent : unit.Leading) (n : Nat) :
    Text.Leading (repeated n unit) := by
  intro b hb
  obtain ⟨u, hu, hb⟩ := mem_flatten.mp hb
  rw [eq_of_mem_replicate hu] at hb
  exact hindent b hb

theorem content_append (h : leading.Leading) (line : Text) :
    content (leading ++ line) = content line := by
  rw [content, content, dropWhile_append_of_pos h]

theorem indentation_append (h : leading.Leading) (line : Text) :
    indentation (leading ++ line) = leading ++ indentation line := by
  rw [indentation, indentation, takeWhile_append_of_pos h]

theorem repeated_add (m n : Nat) (unit : Text) :
    repeated (m + n) unit = repeated m unit ++ repeated n unit := by
  rw [repeated, repeated, repeated, replicate_add, flatten_append]

theorem isLevel_repeated (hunit : unit.isEmpty = false) (n : Nat) : IsLevel unit (repeated n unit) n := by
  have hpos : 0 < unit.length := length_pos_of_ne_nil (isEmpty_eq_false_iff.mp hunit)
  have hlength : (repeated n unit).length = n * unit.length := by
    simp [repeated, length_flatten]
  rw [IsLevel]
  by_cases hempty : (repeated n unit).isEmpty
  · rw [if_pos hempty]
    rw [List.isEmpty_iff.mp hempty, length_nil, eq_comm, Nat.mul_eq_zero] at hlength
    omega
  · rw [if_neg hempty, levelIn?, hlength, Nat.mul_div_cancel _ hpos, if_pos rfl]

theorem IsLevel.repeated_eq (h : IsLevel unit leading level) : repeated level unit = leading := by
  rw [IsLevel] at h
  by_cases hempty : leading.isEmpty
  · rw [if_pos hempty] at h
    rw [h, List.isEmpty_iff.mp hempty]
    rfl
  · rw [if_neg hempty] at h
    exact repeated_of_levelIn? h

theorem IsLevel.deepened (hunit : unit.isEmpty = false) (hindent : unit.Leading) (rise : Nat)
    (h : IsLevel unit (indentation line) level) :
    IsLevel unit (indentation (repeated rise unit ++ line)) (level + rise) := by
  rw [indentation_append (leading_repeated hindent rise), ← h.repeated_eq, ← repeated_add,
    Nat.add_comm rise level]
  exact isLevel_repeated hunit _

/-- The text of a raw line does not change if it is put deeper with its block. -/
theorem rawText?_deepened (rise base : Nat) (line : Text) :
    rawText? unit (base + rise) (repeated rise unit ++ line) = rawText? unit base line := by
  have hmargin : repeated (base + rise + 1) unit =
      repeated rise unit ++ repeated (base + 1) unit := by
    rw [← repeated_add]
    congr 1
    omega
  rw [rawText?, rawText?, after?, after?, hmargin]
  simp only [List.isPrefixOf_iff_prefix, prefix_append_right_inj, length_append,
    drop_append, drop_eq_nil_of_le (Nat.le_add_right _ _), Nat.add_sub_cancel_left,
    nil_append]

/-! ## Reading on after other rows -/

/-- Since `s` had the rows `since` and `t` the rows `above`, `t` has read the same lines as `s`, but
deeper. Before the first row of its own, a raw block from above may still be open. -/
structure After (rise : Nat) (since above : List Row) (s t : Reading) : Prop where
  unit : t.unit = s.unit
  rows : ∃ own rows, s.rows = own ++ since ∧ t.rows = rows ++ above ∧
    rows.map Row.unplaced = own.map fun row => (row.raised rise).unplaced
  raw : t.raw = s.raw.map (RawBlock.raised rise) ∨
    s.raw = none ∧ s.rows = [] ∧ ∀ block ∈ t.raw, rise ≤ block.base
  room : ∀ {level}, Fits since.head? level → Fits above.head? (level + rise)

theorem blankRows_unplaced (rise m n : Nat) (block : RawBlock) : (blankRows m (block.raised rise)).map Row.unplaced
      = (blankRows n block).map fun row => (row.raised rise).unplaced := by
  have hstart : (block.raised rise).started = block.started := rfl
  rw [blankRows, blankRows, hstart]
  by_cases hstarted : block.started
  · rw [if_pos hstarted, if_pos hstarted, map_map, map_map]
    refine map_congr_left fun i _ => ?_
    simp only [Function.comp_apply, Row.unplaced, Row.raised, RawBlock.raised]
    rw [Nat.add_right_comm]
  · rw [if_neg hstarted, if_neg hstarted]
    rfl

theorem IsLevel.indentation_eq_nil (h : IsLevel unit leading 0) : leading = [] := h.repeated_eq.symm

theorem rawText?_eq_none (base : Nat) (hunit : unit.isEmpty = false) (hindent : unit.Leading)
    (hline : indentation line = []) : rawText? unit base line = none := by
  rw [rawText?, hunit, if_neg Bool.false_ne_true, after?]
  rcases unit with _ | ⟨b, unit⟩
  · cases hunit
  have hb := hindent b mem_cons_self
  have hrepeated : repeated (base + 1) (b :: unit)
      = b :: (unit ++ repeated base (b :: unit)) := by
    rw [repeated, replicate_succ, flatten_cons]
    rfl
  rw [hrepeated, if_neg]
  intro hprefix
  rcases line with _ | ⟨c, line⟩
  · cases hprefix
  · rw [List.isPrefixOf, Bool.and_eq_true] at hprefix
    rw [indentation, takeWhile_cons, ← eq_of_beq hprefix.1, if_pos hb] at hline
    cases hline

section

variable {rise : Nat} {since : List Row}

theorem After.fits (h : After rise since above s t) (hfits : Fits s.rows.head? level) :
    Fits t.rows.head? (level + rise) := by
  obtain ⟨own, rows, hown, hrows, hunplaced⟩ := h.rows
  rw [hown] at hfits
  rw [hrows]
  rcases own with _ | ⟨row, own⟩
  · rw [map_eq_nil_iff.mp hunplaced]
    exact h.room hfits
  · rcases rows with _ | ⟨row', rows⟩
    · cases hunplaced
    · have hlevel : row'.level = row.level + rise := by
        rw [← level_unplaced row', (cons.inj hunplaced).1, level_unplaced, level_raised]
      have hrow : level ≤ row.level + 1 := hfits
      change level + rise ≤ row'.level + 1
      omega

theorem After.raw_eq {block : RawBlock} (h : After rise since above s t) (hraw : s.raw = some block) :
    t.raw = some (block.raised rise) := by
  rcases h.raw with hsame | ⟨hnone, -⟩
  · rw [hsame, hraw]
    rfl
  · rw [hraw] at hnone
    cases hnone

/-- A line that belongs to no raw block of its own belongs to none from above either. -/
theorem After.rawText?_eq_none (h : After rise since above s t) (hunit : s.unit.isEmpty = false)
    (hindent : s.unit.Leading)
    (hraw : ∀ block, s.raw = some block → rawText? s.unit block.base line = none)
    (hlevel : IsLevel s.unit (indentation line) level) (hfits : Fits s.rows.head? level) :
    ∀ block, t.raw = some block → rawText? s.unit block.base (repeated rise s.unit ++ line) = none := by
  intro block ht
  rcases h.raw with hsame | ⟨-, hfirst, hbase⟩
  · rw [hsame, Option.map_eq_some_iff] at ht
    obtain ⟨own, hown, rfl⟩ := ht
    rw [RawBlock.raised, rawText?_deepened]
    exact hraw own hown
  · -- The first row of its own is not indented further, so it ends the block from above.
    rw [hfirst] at hfits
    obtain rfl : level = 0 := hfits
    obtain ⟨base, hbase⟩ := Nat.exists_eq_add_of_le' (hbase block ht)
    rw [hbase, rawText?_deepened]
    exact Reading.rawText?_eq_none base hunit hindent hlevel.indentation_eq_nil

/-- A line that is read can be read one level deeper behind other rows. -/
theorem After.step {m : Nat} (n : Nat) (h : After rise since above s t) (hunit : s.unit.isEmpty = false)
    (hindent : s.unit.Leading) (hreads : Reads m line s s') :
    ∃ t', Reads n (deepened s.unit rise line) t t' ∧ After rise since above s' t' := by
  have hknown : ∀ line', t.unitAt line' = s.unit := fun line' => by
    rw [unitAt_of_known (by rw [h.unit]; exact hunit), h.unit]
  have hknown' := unitAt_of_known hunit line
  obtain ⟨own, rows, hown, hrows, hunplaced⟩ := h.rows
  cases hreads with
  | blank hblank hraw =>
    rw [deepened_of_blank rise hblank]
    rcases ht : t.raw with _ | block
    · exact ⟨t, .blank hblank ht, h⟩
    · -- A block from above counts the line, but no row comes of it before the first of its own.
      refine ⟨_, .rawBlank hblank ht, h.unit, ⟨own, rows, hown, hrows, hunplaced⟩, .inr ?_, h.room⟩
      rcases h.raw with hsame | ⟨hnone, hfirst, hbase⟩
      · rw [ht, hraw] at hsame
        cases hsame
      · refine ⟨hnone, hfirst, ?_⟩
        rintro _ ⟨⟩
        exact hbase block ht
  | rawBlank hblank hraw =>
    rw [deepened_of_blank rise hblank]
    exact ⟨_, .rawBlank hblank (h.raw_eq hraw), h.unit, ⟨own, rows, hown, hrows, hunplaced⟩, .inl rfl, h.room⟩
  | @rawLine block text hcontent hraw htext =>
    have hsame := content_append (leading_repeated hindent rise) line
    have htext' : rawText? (t.unitAt (repeated rise s.unit ++ line)) (block.raised rise).base
        (repeated rise s.unit ++ line) = some text := by
      rw [hknown, RawBlock.raised, rawText?_deepened, ← htext, hknown']
    rw [deepened_of_content rise hcontent]
    rw [← hsame] at hcontent
    refine ⟨_, .rawLine hcontent (h.raw_eq hraw) htext', (hknown _).trans hknown'.symm,
      ⟨.verbatim m (block.base + 1) (trimEnd isGap text) :: (blankRows m block).reverse ++ own,
        .verbatim n (block.base + rise + 1) (trimEnd isGap text) ::
        (blankRows n (block.raised rise)).reverse ++ rows, ?_, ?_, ?_⟩, .inl rfl, h.room⟩
    · rw [hown, append_assoc]
    · rw [hrows, append_assoc]
      rfl
    · rw [map_append, map_append, hunplaced, map_cons, map_cons,
        map_reverse, map_reverse, blankRows_unplaced rise n m block, Nat.add_right_comm]
      rfl
  | @words level words detected hcontent hraw hlevel hfits hwords =>
    have hsame := content_append (leading_repeated hindent rise) line
    rw [hknown'] at hraw hlevel
    rw [deepened_of_content rise hcontent]
    rw [← hsame] at hcontent hwords
    have hreads' : Reads n (repeated rise s.unit ++ line) t
        { unit := t.unitAt (repeated rise s.unit ++ line)
          detected := detected
          rows := .words n (level + rise) words :: t.rows
          raw := if opensRaw (content (repeated rise s.unit ++ line)) then
            some { base := level + rise } else none } := by
      refine .words hcontent ?_ ?_ (h.fits hfits) hwords <;> rw [hknown]
      · exact h.rawText?_eq_none hunit hindent hraw hlevel hfits
      · exact hlevel.deepened hunit hindent rise
    refine ⟨_, hreads', (hknown _).trans hknown'.symm, ⟨.words m level words :: own,
      .words n (level + rise) words :: rows, ?_, ?_, ?_⟩, .inl ?_, h.room⟩
    · rw [hown, cons_append]
    · rw [hrows, cons_append]
    · rw [map_cons, map_cons, hunplaced]
      rfl
    · dsimp only
      rw [hsame]
      split <;> rfl

/-- So can all lines. -/
theorem After.run {m : Nat} (n : Nat) (h : After rise since above s t) (hunit : s.unit.isEmpty = false)
    (hindent : s.unit.Leading) (hread : readLines m lines s = .ok () s') :
    ∃ t', readLines n (lines.map (deepened s.unit rise)) t = .ok () t' ∧ After rise since above s' t' := by
  induction lines generalizing m n s t with
  | nil =>
    cases hread
    exact ⟨t, rfl, h⟩
  | cons line lines ih =>
    obtain ⟨s₁, hreads, hread⟩ := readLines_cons hread
    have hunit₁ := hreads.unit_eq hunit
    obtain ⟨t₁, hreads', h₁⟩ := h.step n hunit hindent hreads
    have h₁' : After rise since above s₁ { t₁ with detected := t.detected } :=
      ⟨h₁.unit, h₁.rows, h₁.raw, h₁.room⟩
    obtain ⟨t', hrest, h'⟩ := ih (n + 1) h₁' (by rw [hunit₁]; exact hunit)
      (by rw [hunit₁]; exact hindent) hread
    refine ⟨t', ?_, h'⟩
    rw [map_cons, readLines, bind_of_ok _ (hreads'.readLine_eq (by rw [h.unit]; exact hunit)),
      ← hunit₁]
    exact hrest

theorem After.rows_eq (h : After rise [] above s t) : ∃ rows, t.rows = rows ++ above ∧
    rows.map Row.unplaced = s.rows.map fun row => (row.raised rise).unplaced := by
  obtain ⟨own, rows, hown, hrows, hunplaced⟩ := h.rows
  rw [append_nil] at hown
  rw [hown]
  exact ⟨rows, hrows, hunplaced⟩

end

theorem readLines_append (number : Nat) (lines lines' : List Text) (s : Reading) :
    readLines number (lines ++ lines') s
      = (readLines number lines >>= fun _ => readLines (number + lines.length) lines') s := by
  induction lines generalizing number s with
  | nil => rfl
  | cons line lines ih =>
    have hlength : number + (line :: lines).length = number + 1 + lines.length := by
      rw [length_cons]
      omega
    rw [cons_append, readLines, readLines, bind_assoc, hlength]
    exact congrArg (fun k => (readLine number line >>= k) s) (funext fun _ => funext fun s => ih _ s)

theorem readLines_unit (hunit : s.unit.isEmpty = false) (hread : readLines number lines s = .ok () s') :
    s'.unit = s.unit := by
  refine readLines_invariant (I := fun t => t.unit = s.unit) (fun {_ _ t _} h hreads => ?_) rfl hread
  rw [hreads.unit_eq (by rw [h, hunit]), h]

theorem readLines_empty (hread : readLines number [[]] s = .ok () s') : s'.rows = s.rows := by
  obtain ⟨s₁, hreads, hread⟩ := readLines_cons hread
  cases hread
  cases hreads with
  | blank => rfl
  | rawBlank => rfl
  | rawLine hcontent => cases hcontent
  | words hcontent => cases hcontent

end Reading

/-! ## Scanning -/

/-- Scanning a source after another one that ends its last line: the tokens of the second come after
those of the first, without the marker of the start, on other lines. -/
theorem scan_append {source₁ source₂ : Text} {scanned₁ scanned₂ : Scanned} (hunit : unit.isEmpty = false)
    (hindent : unit.Leading) (hends : source₁ = [] ∨ source₁.getLast? = some '\n'.toUInt8)
    (h₁ : (scan unit source₁).outcome = .ok scanned₁) (h₂ : (scan unit source₂).outcome = .ok scanned₂) :
    scanned₁.unit = unit ∧ scanned₂.unit = unit ∧
      ∃ rest, (scan unit (source₁ ++ source₂)).outcome = .ok ⟨unit, scanned₁.tokens ++ rest⟩ ∧
        rest.map Token.unplaced = scanned₂.tokens.tail.map Token.unplaced := by
  obtain ⟨before, hlines, happend⟩ := lines_append hends
  obtain ⟨s₁, hread₁, rfl⟩ := scan_ok_iff.mp h₁
  obtain ⟨s₂, hread₂, rfl⟩ := scan_ok_iff.mp h₂
  rw [hlines, readLines_append] at hread₁
  obtain ⟨_, s, hbefore, hlast⟩ := bind_ok hread₁
  -- All three runs end with the unit they started with.
  have hs : s.unit = unit := readLines_unit hunit hbefore
  have hs₁ : s₁.unit = unit := by
    rw [readLines_unit (by rw [hs]; exact hunit) hlast, hs]
  have hs₂ : s₂.unit = unit := readLines_unit hunit hread₂
  have hor := unitOr_of_known hunit
  rw [hs₁, hs₂, hor, readLines_empty hlast]
  refine ⟨rfl, rfl, ?_⟩
  -- The second source is read on from where the first one left off.
  have hroom : ∀ {level}, level = 0 → Reading.Fits s.rows.head? level := by
    rintro _ rfl
    rcases s.rows.head? with _ | row
    · exact rfl
    · exact Nat.zero_le _
  have hafter : Reading.After 0 [] s.rows { unit := unit } s :=
    ⟨hs, ⟨[], [], rfl, rfl, rfl⟩, .inr ⟨rfl, rfl, fun _ _ => Nat.zero_le _⟩, hroom⟩
  obtain ⟨t, hread, h⟩ := hafter.run (1 + before.length) hunit hindent hread₂
  rw [deepened_zero, map_id] at hread
  have hreadAll : readLines 1 (source₁ ++ source₂).lines { unit := unit } = .ok () t := by
    rw [happend, readLines_append, bind_of_ok _ hbefore]
    exact hread
  obtain ⟨rows, hrows, hunplaced⟩ := h.rows_eq
  simp only [raised_zero] at hunplaced
  have hreverse : rows.reverse.map Row.unplaced = s₂.rows.reverse.map Row.unplaced := by
    rw [map_reverse, hunplaced, map_reverse]
  have hfirst : ∀ row ∈ rows.reverse.head?, row.isVerbatim = false ∧ row.level = 0 := by
    intro row hrow
    have hsound := sound_of_readLines hread₂
    have hhead := congrArg List.head? hreverse
    rw [head?_map, head?_map, hrow, Option.map_some, eq_comm, Option.map_eq_some_iff]
      at hhead
    obtain ⟨row₂, hrow₂, heq⟩ := hhead
    obtain ⟨hverbatim, hlevel, -⟩ := hsound.rows.laid.first row₂ hrow₂
    rw [← isVerbatim_unplaced, ← level_unplaced, ← heq, isVerbatim_unplaced, level_unplaced]
    exact ⟨hverbatim, hlevel⟩
  refine ⟨(allTokens rows.reverse).tail, scan_ok_iff.mpr ⟨t, hreadAll, ?_⟩, ?_⟩
  · rw [h.unit, hs₂, hor, hrows, reverse_append, allTokens_append hfirst]
  · rw [map_tail, map_tail, ← allTokens_unplaced, hreverse, allTokens_unplaced]

end Offside
