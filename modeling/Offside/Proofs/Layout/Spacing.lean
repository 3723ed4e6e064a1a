/-
Blank lines.

Blank lines may be put in and taken out anywhere but between two lines of one raw block. An edit
says which line goes where (`Layout.Moved`), and the two sources are read side by side.
-/
import Offside.Proofs.Layout.Extent

set_option autoImplicit false

open List

namespace Offside

/-! ## Edits -/

namespace Layout

/-- What is done to a line. -/
inductive Edit
  | keep (line : Text)
  | insert (line : Text)
  | delete (line : Text)
  deriving DecidableEq, Repr

namespace Edit

def old? : Edit → Option Text
  | keep line => some line
  | insert _ => none
  | delete line => some line

def new? : Edit → Option Text
  | keep line => some line
  | insert line => some line
  | delete _ => none

def changed? : Edit → Option Text
  | keep _ => none
  | insert line => some line
  | delete line => some line

end Edit

def oldLines (edits : List Edit) : List Text := edits.filterMap Edit.old?

def newLines (edits : List Edit) : List Text := edits.filterMap Edit.new?

def Moved (edits : List Edit) (m n : Nat) : Prop :=
  ∃ before line after, edits = before ++ .keep line :: after ∧
    m = (oldLines before).length + 1 ∧ n = (newLines before).length + 1

/-- Only blank lines are put in or taken out, and not between two lines of a raw block. -/
def Allowed (unit : Text) (edits : List Edit) : Prop :=
  ∀ before edit after line, edits = before ++ edit :: after → edit.changed? = some line →
    (∀ b ∈ line, Text.isGap b) ∧
      ∀ o i j, InBlock unit (oldLines edits) o i → InBlock unit (oldLines edits) o j →
        i < (oldLines before).length → j < (oldLines before).length

variable {edits before after : List Edit} {line : Text} {m n : Nat}

@[simp] theorem oldLines_append (edits edits' : List Edit) :
    oldLines (edits ++ edits') = oldLines edits ++ oldLines edits' := filterMap_append

@[simp] theorem newLines_append (edits edits' : List Edit) :
    newLines (edits ++ edits') = newLines edits ++ newLines edits' := filterMap_append

variable {edit : Edit}

theorem length_oldLines_some (h : edit.old? = some line) :
    (oldLines (before ++ [edit])).length = (oldLines before).length + 1 := by
  rw [oldLines_append, length_append, oldLines, oldLines, filterMap_cons_some h]
  rfl

theorem length_newLines_some (h : edit.new? = some line) :
    (newLines (before ++ [edit])).length = (newLines before).length + 1 := by
  rw [newLines_append, length_append, newLines, newLines, filterMap_cons_some h]
  rfl

theorem length_oldLines_none (h : edit.old? = none) :
    (oldLines (before ++ [edit])).length = (oldLines before).length := by
  rw [oldLines_append, length_append, oldLines, oldLines, filterMap_cons_none h]
  rfl

theorem length_newLines_none (h : edit.new? = none) :
    (newLines (before ++ [edit])).length = (newLines before).length := by
  rw [newLines_append, length_append, newLines, newLines, filterMap_cons_none h]
  rfl

theorem Moved.pos (h : Moved edits m n) : 1 ≤ m ∧ 1 ≤ n := by
  obtain ⟨before, line, after, -, rfl, rfl⟩ := h
  exact ⟨Nat.le_add_left .., Nat.le_add_left ..⟩

/-- A line that is kept moves as the edits before it say. -/
theorem moved_keep (hedits : edits = before ++ .keep line :: after) :
    Moved edits ((oldLines before).length + 1) ((newLines before).length + 1) :=
  ⟨before, line, after, hedits, rfl, rfl⟩

theorem getElem?_oldLines (hedits : edits = before ++ edit :: after) (hline : edit.old? = some line) :
    (oldLines edits)[(oldLines before).length]? = some line := by
  have hcons : oldLines (edit :: after) = line :: oldLines after := filterMap_cons_some hline
  rw [hedits, oldLines_append, getElem?_append_right (Nat.le_refl _), Nat.sub_self, hcons]
  rfl

/-- Only blank lines are put in or taken out. -/
theorem Allowed.blank {unit : Text} (h : Allowed unit edits) (hedits : edits = before ++ edit :: after)
    (hline : edit.changed? = some line) : (Reading.content line).isEmpty :=
  Reading.content_isEmpty_iff.mpr (h before edit after line hedits hline).1

@[simp] theorem oldLines_keep (lines : List Text) : oldLines (lines.map .keep) = lines := by
  rw [oldLines, filterMap_map]
  exact filterMap_some

/-- A blank line may be put in where it splits no raw block. -/
theorem allowed_insert {unit : Text} {above below : List Text} (hline : ∀ b ∈ line, Text.isGap b)
    (hblocks : ∀ o i j, InBlock unit (above ++ below) o i → InBlock unit (above ++ below) o j →
      i < above.length → j < above.length) :
    Allowed unit (above.map .keep ++ .insert line :: below.map .keep) := by
  intro before edit after line' hedits hchanged
  have hkept : ∀ lines : List Text, edit ∉ lines.map Edit.keep := by
    intro lines hmem
    obtain ⟨_, -, rfl⟩ := mem_map.mp hmem
    cases hchanged
  -- All other edits keep a line, so there is one place where the list can be split.
  obtain ⟨rfl, hedit⟩ : before = above.map .keep ∧ edit = .insert line := by
    rcases append_eq_append_iff.mp hedits with ⟨l, hbefore, hbelow⟩ | ⟨l, habove, hafter⟩
    · rcases l with _ | ⟨_, l⟩
      · exact ⟨by rw [hbefore, append_nil], (cons.inj hbelow).1.symm⟩
      · have hmem : edit ∈ below.map Edit.keep := by
          rw [(cons.inj hbelow).2]
          exact mem_append_right _ mem_cons_self
        exact absurd hmem (hkept below)
    · rcases l with _ | ⟨_, l⟩
      · exact ⟨by rw [habove, append_nil], (cons.inj hafter).1⟩
      · have hmem : edit ∈ above.map Edit.keep := by
          rw [habove, (cons.inj hafter).1]
          exact mem_append_right _ mem_cons_self
        exact absurd hmem (hkept above)
  have hold : oldLines (above.map .keep ++ .insert line :: below.map .keep) = above ++ below := by
    rw [oldLines_append, oldLines_keep]
    exact congrArg (above ++ ·) (oldLines_keep below)
  rw [hold, oldLines_keep]
  subst hedit
  cases hchanged
  exact ⟨hline, hblocks⟩

end Layout

/-! ## Tokens that move with their lines -/

namespace Token

def Moves (moved : Nat → Nat → Prop) (t u : Token) : Prop :=
  u.unplaced = t.unplaced ∧ ∃ m n : Nat, moved m n ∧ t.line = m ∧ u.line = n

theorem forall₂_moves {moved : Nat → Nat → Prop} {m n : Nat} {ts us : List Token} (hmoved : moved m n)
    (h : us.map unplaced = ts.map unplaced) (hts : ∀ t ∈ ts, t.line = m) (hus : ∀ u ∈ us, u.line = n) :
    Forall₂ (Moves moved) ts us := by
  have hsame := forall₂_of_unplaced h
  clear h
  induction hsame with
  | nil => exact .nil
  | cons htu _ ih =>
    obtain ⟨ht, hts⟩ := forall_mem_cons.mp hts
    obtain ⟨hu, hus⟩ := forall_mem_cons.mp hus
    exact .cons ⟨unplaced_eq_iff.mpr htu, m, n, hmoved, ht, hu⟩ (ih hts hus)

end Token

namespace Row

variable {moved : Nat → Nat → Prop} {a b c d : Row} {rows rows' : List Row}

def Moves (moved : Nat → Nat → Prop) (a b : Row) : Prop := b.unplaced = a.unplaced ∧ moved a.line b.line

theorem Moves.level_eq (h : Moves moved a b) : b.level = a.level := by
  rw [← level_unplaced, h.1, level_unplaced]

theorem Moves.tokens (h : Moves moved a b) : Forall₂ (Token.Moves moved) a.tokens b.tokens := by
  refine Token.forall₂_moves h.2 ?_ (fun t ht => (mem_tokens ht).2.1) (fun u hu => (mem_tokens hu).2.1)
  rw [← tokens_unplaced, h.1, tokens_unplaced]

theorem Moves.closing (h : Moves moved a b) (level : Nat) :
    Forall₂ (Token.Moves moved) (a.closing level) (b.closing level) := by
  refine Token.forall₂_moves h.2 ?_ (fun t ht => (mem_closing ht).1) (fun u hu => (mem_closing hu).1)
  rw [← closing_unplaced, h.1, closing_unplaced]

theorem Moves.between (h : Moves moved a b) (h' : Moves moved c d) :
    Forall₂ (Token.Moves moved) (a.between c) (b.between d) := by
  refine Token.forall₂_moves h.2 ?_ (fun t ht => (mem_between ht).1) (fun u hu => (mem_between hu).1)
  rw [← between_unplaced, h.1, h'.1, between_unplaced]

theorem Moves.tokensAfter (h : Moves moved a b) (hrows : Forall₂ (Moves moved) rows rows') :
    Forall₂ (Token.Moves moved) (a.tokensAfter rows) (b.tokensAfter rows') := by
  induction hrows generalizing a b with
  | nil => exact h.closing 0
  | cons hrow _ ih => exact rel_append (rel_append (h.between hrow) hrow.tokens) (ih hrow)

/-- The tokens of rows that move move with them. -/
theorem moves_allTokens (h : Forall₂ (Moves moved) rows rows') :
    ∃ ts us, allTokens rows = start :: ts ∧ allTokens rows' = start :: us ∧
      Forall₂ (Token.Moves moved) ts us := by
  cases h with
  | nil => exact ⟨[], [], rfl, rfl, .nil⟩
  | cons hrow hrows => exact ⟨_, _, rfl, rfl, rel_append hrow.tokens (hrow.tokensAfter hrows)⟩

end Row

/-! ## Reading side by side -/

namespace Reading

open Layout

variable {unit line : Text} {edits before after rest : List Edit} {edit : Edit} {s s' t t' : Reading}
  {block block' : RawBlock}

def Ended (unit : Text) (lines : List Text) (base n : Nat) : Prop :=
  ∃ o, ¬ IsRaw unit lines o ∧ OpenAt unit lines o base n ∧ ∀ j, InBlock unit lines o j → j < n

theorem Ended.succ {lines : List Text} {base n : Nat} (h : Ended unit lines base n) (hline : lines[n]? = some line)
    (hblank : (content line).isEmpty) : Ended unit lines base (n + 1) := by
  obtain ⟨o, ho, hopen, hlast⟩ := h
  refine ⟨o, ho, hopen.succ fun line' hfilled => ?_, fun j hj => Nat.lt_succ_of_lt (hlast j hj)⟩
  exact absurd hfilled (not_nonBlank_of_blank hline hblank line')

/-- The raw block of two readings. They have counted the same blank lines, unless that does not
matter. -/
structure SameBlock (unit : Text) (edits before : List Edit) (block block' : RawBlock) : Prop where
  base : block'.base = block.base
  started : block'.started = block.started
  blanks : block.started →
    block'.blanks = block.blanks ∧
      (∀ i < block.blanks, Moved edits ((oldLines before).length - i) ((newLines before).length - i)) ∨
    Ended unit (oldLines edits) block.base (oldLines before).length

/-- The two readings after the edits in `before`. -/
structure Aligned (unit : Text) (edits before : List Edit) (s t : Reading) : Prop where
  spans : s.Spans unit (oldLines edits) (oldLines before).length
  unit_eq : t.unit = s.unit
  rows : Forall₂ (Row.Moves (Moved edits)) s.rows t.rows
  raw : Option.Rel (SameBlock unit edits before) s.raw t.raw

def SameError (edits : List Edit) (e e' : ScanError) : Prop :=
  e'.column = e.column ∧ e'.text = e.text ∧ ∃ m n : Nat, Moved edits m n ∧ e.line = m ∧ e'.line = n

theorem aligned_start (hunit : unit.isEmpty = false) (edits : List Edit) :
    Aligned unit edits [] { unit := unit } { unit := unit } :=
  ⟨spans_start hunit _, rfl, .nil, .none⟩

theorem Aligned.sameAbove (hrows : Forall₂ (Row.Moves (Moved edits)) s.rows t.rows) : SameAbove s t := by
  rw [SameAbove]
  generalize s.rows = rows at hrows
  generalize t.rows = rows' at hrows
  cases hrows with
  | nil => rfl
  | cons hrow _ => exact congrArg some hrow.level_eq

/-! ### A line that is kept -/

theorem moves_blankRows (h : SameBlock unit edits before block block')
    (hgoes : ¬ Ended unit (oldLines edits) block.base (oldLines before).length) :
    Forall₂ (Row.Moves (Moved edits)) (blankRows ((oldLines before).length + 1) block)
      (blankRows ((newLines before).length + 1) block') := by
  rw [blankRows, blankRows, h.started, h.base]
  split
  · next hstarted =>
    obtain ⟨hblanks, hmoved⟩ := (h.blanks hstarted).resolve_right hgoes
    rw [hblanks, forall₂_map_left_iff, forall₂_map_right_iff, forall₂_same]
    intro i hi
    rw [mem_range] at hi
    have hpos := (hmoved (block.blanks - 1) (by omega)).pos
    have hline := hmoved (block.blanks - 1 - i) (by omega)
    refine ⟨rfl, ?_⟩
    convert hline using 1 <;> simp only [Row.line] <;> omega
  · exact .nil

theorem SameBlock.keepBlank (h : SameBlock unit edits before block block')
    (hedits : edits = before ++ .keep line :: after) (hblank : (content line).isEmpty) :
    SameBlock unit edits (before ++ [.keep line]) { block with blanks := block.blanks + 1 }
      { block' with blanks := block'.blanks + 1 } where
  base := h.base
  started := h.started
  blanks := by
    intro hstarted
    rw [length_oldLines_some rfl, length_newLines_some rfl]
    rcases h.blanks hstarted with ⟨hblanks, hmoved⟩ | hended
    · refine .inl ⟨congrArg (· + 1) hblanks, fun i hi => ?_⟩
      rcases i with _ | i
      · exact moved_keep hedits
      · rw [Nat.add_sub_add_right, Nat.add_sub_add_right]
        exact hmoved i (Nat.lt_of_succ_lt_succ hi)
    · exact .inr (hended.succ (getElem?_oldLines hedits rfl) hblank)

theorem Aligned.readWords (hrows : Forall₂ (Row.Moves (Moved edits)) s.rows t.rows) (hunit : t.unit = s.unit)
    (hedits : edits = before ++ .keep line :: after)
    (hspans : ∀ s', Reading.readWords ((oldLines before).length + 1) line s = .ok () s' →
      s'.Spans unit (oldLines edits) ((oldLines before).length + 1)) :
    Matched (Aligned unit edits (before ++ [.keep line])) (SameError edits)
      (Reading.readWords ((oldLines before).length + 1) line s)
      (Reading.readWords ((newLines before).length + 1) line t) := by
  have hunitAt : t.unitAt line = s.unitAt line := by rw [unitAt, unitAt, hunit]
  have hmatched : Relocated ((newLines before).length + 1)
      (Reading.readWords ((oldLines before).length + 1) line s)
      (Reading.readWords ((newLines before).length + 1) line t) :=
    readWords_relocated (Aligned.sameAbove hrows) (.inr hunitAt)
  generalize hs : Reading.readWords ((oldLines before).length + 1) line s = r at hmatched
  generalize ht : Reading.readWords ((newLines before).length + 1) line t = r' at hmatched
  cases hmatched with
  | @error e e' s' t' he =>
    refine .error ⟨by rw [he], by rw [he], _, _, moved_keep hedits, readWords_error hs, by rw [he]⟩
  | @ok _ s' t' hlevel =>
    have hspans := hspans s' hs
    obtain ⟨level, words, detected, -, -, hwords, rfl⟩ := readWords_ok hs
    obtain ⟨level', words', detected', -, -, hwords', rfl⟩ := readWords_ok ht
    obtain rfl : level' = level := Option.some.inj hlevel
    obtain rfl : words = words' := Except.ok.inj (hwords.symm.trans hwords')
    refine .ok ⟨?_, hunitAt, .cons ⟨rfl, moved_keep hedits⟩ hrows, ?_⟩
    · rw [length_oldLines_some rfl]
      exact hspans
    · dsimp only
      split
      · exact .some ⟨rfl, rfl, fun hstarted => absurd hstarted Bool.false_ne_true⟩
      · exact .none

/-- A line that is kept is read alike on both sides. -/
theorem Aligned.keep (h : Aligned unit edits before s t) (hedits : edits = before ++ .keep line :: after) :
    Matched (Aligned unit edits (before ++ [.keep line])) (SameError edits)
      (readLine ((oldLines before).length + 1) line s) (readLine ((newLines before).length + 1) line t) := by
  have hline := getElem?_oldLines hedits rfl
  have hspans : ∀ s', readLine ((oldLines before).length + 1) line s = .ok () s' →
      s'.Spans unit (oldLines edits) ((oldLines before).length + 1) :=
    fun s' hread => h.spans.step hline (readLine_ok hread)
  have hlength : (oldLines (before ++ [.keep line])).length = (oldLines before).length + 1 :=
    length_oldLines_some rfl
  have hraw := h.raw
  generalize hs : s.raw = raw at hraw
  generalize ht : t.raw = raw' at hraw
  cases hraw with
  | none =>
    rw [readLine_of_none hs] at hspans ⊢
    rw [readLine_of_none ht]
    cases hblank : (content line).isEmpty with
    | true =>
      rw [hblank, if_pos rfl] at hspans
      refine .ok ⟨?_, h.unit_eq, h.rows, ?_⟩
      · rw [hlength]
        exact hspans s rfl
      · rw [hs, ht]
        exact .none
    | false =>
      rw [hblank, if_neg Bool.false_ne_true] at hspans
      exact Aligned.readWords h.rows h.unit_eq hedits hspans
  | @some block block' hblock =>
    rw [readLine_of_some hs] at hspans ⊢
    rw [readLine_of_some ht]
    cases hblank : (content line).isEmpty with
    | true =>
      rw [hblank, if_pos rfl] at hspans
      refine .ok ⟨?_, h.unit_eq, h.rows, .some (hblock.keepBlank hedits hblank)⟩
      rw [hlength]
      exact hspans _ rfl
    | false =>
      have hunitAt : t.unitAt line = s.unitAt line := by rw [unitAt, unitAt, h.unit_eq]
      rw [hblank, if_neg Bool.false_ne_true] at hspans
      rw [if_neg Bool.false_ne_true, if_neg Bool.false_ne_true, hunitAt, hblock.base]
      cases htext : rawText? (s.unitAt line) block.base line with
      | none =>
        -- The block ends here, and its blank lines are dropped in both readings.
        rw [htext] at hspans
        exact Aligned.readWords h.rows rfl hedits hspans
      | some text =>
        rw [htext] at hspans
        -- The line is in the block, so the block has not ended.
        have hgoes : ¬ Ended unit (oldLines edits) block.base (oldLines before).length := by
          rintro ⟨o, ho, hopen, hlast⟩
          have hin := hopen.inBlock ho ⟨hline, hblank⟩ (h.spans.margin_of_rawText? htext)
          exact absurd (hlast _ hin) (Nat.lt_irrefl _)
        refine .ok ⟨?_, rfl, ?_, .some ⟨rfl, rfl, ?_⟩⟩
        · rw [hlength]
          exact hspans _ rfl
        · refine .cons ⟨?_, moved_keep hedits⟩ (rel_append ?_ h.rows)
          · rfl
          · exact rel_reverse (moves_blankRows hblock hgoes)
        · exact fun _ => .inl ⟨rfl, fun i hi => absurd hi (Nat.not_lt_zero i)⟩

/-! ### A line that is put in or taken out -/

theorem Aligned.ended (h : Aligned unit edits before s t) (hallowed : Allowed unit edits)
    (hedits : edits = before ++ edit :: after) (hchanged : edit.changed? = some line) (hraw : s.raw = some block)
    (hstarted : block.started) : Ended unit (oldLines edits) block.base (oldLines before).length := by
  obtain ⟨o, i, hi, hin, hopen⟩ := h.spans.started block hraw hstarted
  refine ⟨o, hin.1, hopen, fun j hj => ?_⟩
  exact (hallowed before edit after line hedits hchanged).2 o i j hin hj hi

/-- A line that is put in changes nothing that shows. -/
theorem Aligned.insert (h : Aligned unit edits before s t) (hallowed : Allowed unit edits)
    (hedits : edits = before ++ .insert line :: after) :
    ∃ t', readLine ((newLines before).length + 1) line t = .ok () t' ∧
      Aligned unit edits (before ++ [.insert line]) s t' := by
  have hblank := hallowed.blank hedits rfl
  have hlength : (oldLines (before ++ [.insert line])).length = (oldLines before).length :=
    length_oldLines_none rfl
  have hspans := h.spans
  have hraw := h.raw
  generalize hs : s.raw = raw at hraw
  generalize ht : t.raw = raw' at hraw
  cases hraw with
  | none =>
    refine ⟨t, by rw [readLine_of_none ht, if_pos hblank], ?_, h.unit_eq, h.rows, ?_⟩
    · rw [hlength]
      exact hspans
    · rw [hs, ht]
      exact .none
  | @some block block' hblock =>
    have hread : readLine ((newLines before).length + 1) line t =
        .ok () { t with raw := some { block' with blanks := block'.blanks + 1 } } := by
      rw [readLine_of_some ht, if_pos hblank]
    refine ⟨_, hread, ?_, h.unit_eq, h.rows, ?_⟩
    · rw [hlength]
      exact hspans
    · rw [hs]
      refine .some ⟨hblock.base, hblock.started, fun hstarted => .inr ?_⟩
      rw [hlength]
      exact h.ended hallowed hedits rfl hs hstarted

/-- Nor does a line that is taken out. -/
theorem Aligned.delete (h : Aligned unit edits before s t) (hallowed : Allowed unit edits)
    (hedits : edits = before ++ .delete line :: after) :
    ∃ s', readLine ((oldLines before).length + 1) line s = .ok () s' ∧
      Aligned unit edits (before ++ [.delete line]) s' t := by
  have hblank := hallowed.blank hedits rfl
  have hlength : (oldLines (before ++ [.delete line])).length = (oldLines before).length + 1 :=
    length_oldLines_some rfl
  have hspans : ∀ s', readLine ((oldLines before).length + 1) line s = .ok () s' →
      s'.Spans unit (oldLines edits) (oldLines (before ++ [.delete line])).length := by
    intro s' hread
    rw [hlength]
    exact h.spans.step (getElem?_oldLines hedits rfl) (readLine_ok hread)
  have hraw := h.raw
  generalize hs : s.raw = raw at hraw
  generalize ht : t.raw = raw' at hraw
  cases hraw with
  | none =>
    have hread : readLine ((oldLines before).length + 1) line s = .ok () s := by
      rw [readLine_of_none hs, if_pos hblank]
    refine ⟨s, hread, hspans s hread, h.unit_eq, h.rows, ?_⟩
    rw [hs, ht]
    exact .none
  | @some block block' hblock =>
    have hread : readLine ((oldLines before).length + 1) line s =
        .ok () { s with raw := some { block with blanks := block.blanks + 1 } } := by
      rw [readLine_of_some hs, if_pos hblank]
    refine ⟨_, hread, hspans _ hread, h.unit_eq, h.rows, ?_⟩
    rw [ht]
    refine .some ⟨hblock.base, hblock.started, fun hstarted => .inr ?_⟩
    rw [hlength]
    exact (h.ended hallowed hedits rfl hs hstarted).succ (getElem?_oldLines hedits rfl) hblank

/-! ### All lines -/

/-- So both sides stay aligned, or fail alike. -/
theorem Aligned.run (hallowed : Allowed unit edits) (h : Aligned unit edits before s t)
    (hedits : edits = before ++ rest) : Matched (Aligned unit edits edits) (SameError edits)
      (readLines ((oldLines before).length + 1) (oldLines rest) s)
      (readLines ((newLines before).length + 1) (newLines rest) t) := by
  induction rest generalizing before s t with
  | nil =>
    rw [append_nil] at hedits
    subst hedits
    exact .ok h
  | cons edit rest ih =>
    have hnext : edits = (before ++ [edit]) ++ rest := by
      rw [hedits, append_assoc]
      rfl
    cases edit with
    | keep line =>
      refine (h.keep hedits).bind fun _ s' t' h' => ?_
      have hrest := ih h' hnext
      rw [length_oldLines_some rfl, length_newLines_some rfl] at hrest
      exact hrest
    | insert line =>
      obtain ⟨t', hread, h'⟩ := h.insert hallowed hedits
      have hrest := ih h' hnext
      rw [length_oldLines_none rfl, length_newLines_some rfl] at hrest
      change Matched _ _ _ (readLines _ (line :: newLines rest) t)
      rw [readLines, bind_of_ok _ hread]
      exact hrest
    | delete line =>
      obtain ⟨s', hread, h'⟩ := h.delete hallowed hedits
      have hrest := ih h' hnext
      rw [length_oldLines_some rfl, length_newLines_none rfl] at hrest
      change Matched _ _ (readLines _ (line :: oldLines rest) s) _
      rw [readLines, bind_of_ok _ hread]
      exact hrest

theorem firstIndentation_edited
    (hblank : ∀ edit ∈ edits, ∀ line, edit.changed? = some line → (content line).isEmpty) :
    firstIndentation (newLines edits) = firstIndentation (oldLines edits) := by
  induction edits with
  | nil => rfl
  | cons edit edits ih =>
    obtain ⟨hedit, hedits⟩ := forall_mem_cons.mp hblank
    have hskip : ∀ line lines, edit.changed? = some line →
        firstIndentation (line :: lines) = firstIndentation lines := by
      intro line lines hchanged
      rw [firstIndentation, hedit line hchanged, Bool.true_or, if_pos rfl]
    cases edit with
    | keep line =>
      change firstIndentation (line :: newLines edits) = firstIndentation (line :: oldLines edits)
      rw [firstIndentation, firstIndentation, ih hedits]
    | insert line => exact (hskip line (newLines edits) rfl).trans (ih hedits)
    | delete line => exact (ih hedits).trans (hskip line (oldLines edits) rfl).symm

end Reading

open Layout

/-- White space that does not matter. Gaps at the ends of lines make no difference at all. Blank
lines outside of raw blocks move the lines below them, and nothing else: tokens and errors are the
same and move along. Only the marker at the start stays. -/
theorem scan_spacing {unit : Text} (hindent : ∀ b ∈ unit, Text.isIndent b = true) : (∀ source source' : Text,
      Forall₂ Text.Padded (source.pieces Text.lineEnd) (source'.pieces Text.lineEnd) →
        scan unit source' = scan unit source) ∧
    ∀ (source source' : Text) (edits : List Edit),
      source.pieces Text.lineEnd = oldLines edits → source'.pieces Text.lineEnd = newLines edits →
      Allowed (Reading.learnedUnit unit (oldLines edits)) edits →
        (∃ scanned scanned' ts us,
          (scan unit source).outcome = .ok scanned ∧ (scan unit source').outcome = .ok scanned' ∧
          scanned'.unit = scanned.unit ∧ scanned.tokens = Row.start :: ts ∧ scanned'.tokens = Row.start :: us ∧
          Forall₂ (Token.Moves (Moved edits)) ts us) ∨
        ∃ e e', (scan unit source).outcome = .error e ∧ (scan unit source').outcome = .error e' ∧
          Reading.SameError edits e e' := by
  refine ⟨fun source source' h => scan_eq_of_padded hindent h, ?_⟩
  intro source source' edits hold hnew hallowed
  have hblank : ∀ edit ∈ edits, ∀ line, edit.changed? = some line → (Reading.content line).isEmpty = true := by
    intro edit hedit line hchanged
    obtain ⟨before, after, hedits⟩ := append_of_mem hedit
    exact hallowed.blank hedits hchanged
  have hunit : Reading.learnedUnit unit (newLines edits) = Reading.learnedUnit unit (oldLines edits) := by
    rw [Reading.learnedUnit, Reading.learnedUnit, Reading.firstIndentation_edited hblank]
  have hknown := Reading.isIndent_of_mem_learnedUnit hindent (oldLines edits)
  rw [scan_learnedUnit hindent source, scan_learnedUnit hindent source', hold, hnew, hunit,
    scan_outcome hknown, scan_outcome hknown, hold, hnew]
  have hrun : Reading.Matched (Reading.Aligned (Reading.learnedUnit unit (oldLines edits)) edits edits)
      (Reading.SameError edits) (Reading.readLines 1 (oldLines edits) _) (Reading.readLines 1 (newLines edits) _) :=
    (Reading.aligned_start (Reading.learnedUnit_isEmpty unit (oldLines edits)) edits).run hallowed rfl
  generalize Reading.readLines 1 (oldLines edits) _ = r at hrun ⊢
  generalize Reading.readLines 1 (newLines edits) _ = r' at hrun ⊢
  cases hrun with
  | @error e e' _ _ he => exact .inr ⟨e, e', rfl, rfl, he⟩
  | @ok _ s t h =>
    obtain ⟨ts, us, hts, hus, hmoves⟩ := Row.moves_allTokens (rel_reverse h.rows)
    refine .inl ⟨_, _, ts, us, rfl, rfl, ?_, hts, hus, hmoves⟩
    exact congrArg Stream.unitOr h.unit_eq

/-- A blank line below a raw block, behind which the block cannot go on. -/
theorem scan_spacing_raw_block :
    let edits : List Edit := [.keep ("#" : String), .keep ("  a" : String), .keep [], .keep ("  b" : String),
      .insert ("\t" : String), .keep ("x" : String)]
    ∃ scanned scanned' ts us,
      (scan [] ("#\n  a\n\n  b\nx" : String)).outcome = .ok scanned ∧
      (scan [] ("#\n  a\n\n  b\n\t\nx" : String)).outcome = .ok scanned' ∧
      scanned'.unit = scanned.unit ∧ scanned.tokens = Row.start :: ts ∧ scanned'.tokens = Row.start :: us ∧
      Forall₂ (Token.Moves (Moved edits)) ts us := by
  intro edits
  have hallowed : Allowed (Reading.learnedUnit [] (oldLines edits)) edits := by
    have hsplit : edits =
        ([("#" : String), ("  a" : String), [], ("  b" : String)] : List Text).map .keep ++
          .insert ("\t" : String) :: ([("x" : String)] : List Text).map .keep := rfl
    have hunit : Reading.learnedUnit [] (oldLines edits) = ("  " : String) := by decide
    rw [hunit, hsplit]
    refine allowed_insert (forall_mem_singleton.mpr rfl) ?_
    rintro o i j - ⟨-, level, line, -, ⟨hline, -⟩, hmargin⟩ -
    rw [margin, Text.repeated, replicate_succ, flatten_cons] at hmargin
    have hspace := (prefix_append _ _).trans hmargin
    have hj : j < 5 := (List.getElem?_eq_some_iff.mp hline).1
    -- The last line is not indented.
    have hlast : j ≠ 4 := by
      rintro rfl
      cases hline
      exact absurd hspace (by decide)
    change j < 4
    omega
  have hok : (scan [] ("#\n  a\n\n  b\nx" : String)).outcome.toOption.isSome = true := by decide +kernel
  rcases (scan_spacing (forall_mem_nil _)).2 ("#\n  a\n\n  b\nx" : String)
    ("#\n  a\n\n  b\n\t\nx" : String) edits (by decide) (by decide) hallowed with h | ⟨e, _, herror, -⟩
  · exact h
  · rw [herror] at hok
    cases hok

/-- The marker at the start stays on line 1 when the first row moves to line 2. -/
theorem scan_spacing_start : let edits : List Edit := [.insert [], .keep ("x" : String)]
    ((("x" : String) : Text).pieces Text.lineEnd = oldLines edits ∧
      (("\nx" : String) : Text).pieces Text.lineEnd = newLines edits ∧
      Allowed (Reading.learnedUnit [] (oldLines edits)) edits) ∧
    ∃ scanned scanned', (scan [] ("x" : String)).outcome = .ok scanned ∧
      (scan [] ("\nx" : String)).outcome = .ok scanned' ∧
      ¬ Forall₂ (Token.Moves (Moved edits)) scanned.tokens scanned'.tokens := by
  intro edits
  have hallowed : Allowed (Reading.learnedUnit [] (oldLines edits)) edits := by
    have hsplit : edits = ([] : List Text).map .keep ++ .insert [] :: ([("x" : String)] : List Text).map .keep := rfl
    rw [hsplit]
    exact allowed_insert (forall_mem_nil _) fun _ i _ _ _ hi => absurd hi (Nat.not_lt_zero i)
  refine ⟨⟨by decide, by decide, hallowed⟩, _, _, rfl, rfl, fun hmoves => ?_⟩
  obtain ⟨⟨-, m, n, ⟨before, line, after, hedits, -, rfl⟩, -, hn⟩, -⟩ := forall₂_cons.mp hmoves
  rcases before with _ | ⟨edit, before⟩
  · cases (cons.inj hedits).1
  · obtain rfl := (cons.inj hedits).1
    change (1 : Int) = ((newLines before).length + 1 + 1 : Nat) at hn
    omega

end Offside
