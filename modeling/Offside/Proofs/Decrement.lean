/-
Minus signs in the body of a source.

A minus sign before an operand is written right before it, so two of them become a decrement.
Nothing else does: a sign that subtracts has spaces around it, and no word ends with one.
-/
import Offside.Proofs.Classification
import Offside.Proofs.Deepening

set_option autoImplicit false

namespace Offside

open List Text SourceHistory

/-! ## How words end -/

namespace Text

variable {t u : Text}

theorem getLast?_of_suffix (hu : u <:+ t) (hne : u ≠ []) (h : u.getLast? ≠ some minusSign) :
    t.getLast? ≠ some minusSign := by
  obtain ⟨a, rfl⟩ := hu
  rwa [getLast?_append_of_ne_nil _ hne]

theorem getLast?_of_dropWhile {p : UInt8 → Bool} (hp : p minusSign = false)
    (h : (t.dropWhile p).getLast? ≠ some minusSign) : t.getLast? ≠ some minusSign := by
  rw [← takeWhile_append_dropWhile (p := p) (l := t)]
  refine getLast?_append_ne (fun hlast => ?_) h
  rw [all_eq_true.mp all_takeWhile _ (mem_of_mem_getLast? hlast)] at hp
  cases hp

theorem getLast?_of_skipExponent (h : (skipExponent t).getLast? ≠ some minusSign) : t.getLast? ≠ some minusSign := by
  rw [skipExponent] at h
  cases hafter : afterExponent? t with
  | none => rwa [hafter] at h
  | some rest =>
    rw [hafter, Option.getD_some] at h
    obtain ⟨e, sign, d, ds, rfl, -, -, hd, rfl, -⟩ := exists_digits hafter
    refine getLast?_of_suffix ⟨e :: sign, rfl⟩ (cons_ne_nil d ds) (getLast?_of_dropWhile (p := isDigit) rfl ?_)
    rwa [dropWhile_cons_of_pos hd]

/-- No number ends with a minus sign. -/
theorem getLast?_of_isNumber (h : t.isNumber) : t.getLast? ≠ some minusSign := by
  have hsuffix : ∀ {u : Text}, u.isNumberSuffix → u.getLast? ≠ some minusSign := by
    intro u hu hlast
    rw [isNumberSuffix, Bool.and_eq_true] at hu
    exact absurd (all_eq_true.mp hu.2 _ (mem_of_mem_getLast? hlast)) (by decide)
  have hprefixed : ∀ {mark part : UInt8 → Bool}, part minusSign = false →
      ((afterPrefixed? mark part t).map isNumberSuffix).getD false →
      t.getLast? ≠ some minusSign := by
    intro mark part hpart hsome
    cases hafter : afterPrefixed? mark part t with
    | none => rw [hafter] at hsome; cases hsome
    | some rest =>
      rw [hafter] at hsome
      obtain ⟨letter, d, ds, rfl, -, hd, rfl⟩ := afterPrefixed?_eq_some_iff.mp hafter
      refine getLast?_of_suffix ⟨['0'.toUInt8, letter], rfl⟩ (cons_ne_nil d ds) (getLast?_of_dropWhile hpart ?_)
      rw [dropWhile_cons_of_pos hd]
      exact hsuffix hsome
  rw [isNumber, Bool.or_eq_true, Bool.or_eq_true] at h
  rcases h with (h | h) | h
  · exact hprefixed (by decide) h
  · exact hprefixed (by decide) h
  · cases t with
    | nil => cases h
    | cons d t =>
      rw [isDecimalNumber, Bool.and_eq_true] at h
      -- The only minus sign is that of an exponent, and digits follow it.
      have hloose : (t.dropWhile isDecimalPart).getLast? ≠ some minusSign := by
        have hrest := getLast?_of_skipExponent (hsuffix h.2)
        cases hd : t.dropWhile isDecimalPart with
        | nil => simp
        | cons b rest =>
          rw [hd, skipLooseFraction] at hrest
          split at hrest
          · next hb =>
            refine getLast?_append_ne (k := [b]) ?_ (getLast?_of_dropWhile (by decide) hrest)
            rw [eq_of_beq hb]
            decide
          · exact hrest
      refine getLast?_append_ne (k := [d]) ?_ (getLast?_of_dropWhile (by decide) hloose)
      rintro ⟨⟩
      exact absurd h.1 (by decide)

/-- The text may be a word, and if it can be an operand then no minus sign is first in it. -/
def Parted (t : Text) : Prop :=
  t.Mild ∧ ((Lexeme.ofText t).isAtom → ∃ b ∈ t.head?, b ≠ minusSign)

theorem parted_of_settled (h : t.Settled) {b : UInt8} (hb : t.head? = some b) (hne : b ≠ minusSign) : t.Parted :=
  ⟨⟨h.inside, fun hlast => absurd hlast h.last⟩, fun _ => ⟨b, hb, hne⟩⟩

theorem parted_of_all {p : UInt8 → Bool} (hp : p minusSign = false) (h : t.all p) (hne : t ≠ []) :
    t.Parted := by
  have hno : ∀ {b : UInt8}, b ∈ t → b ≠ minusSign := by
    rintro _ hb rfl
    rw [all_eq_true.mp h _ hb] at hp
    cases hp
  obtain ⟨b, rest, rfl⟩ := exists_cons_of_ne_nil hne
  exact parted_of_settled (settled_of_not_mem fun hmem => hno hmem rfl) rfl (hno mem_cons_self)

theorem parted_of_isBetween {quote : UInt8} (hquote : quote ≠ minusSign) (h : t.isBetween quote)
    (hno : t.NoDecrement) : t.Parted := by
  simp only [isBetween, Bool.and_eq_true, beq_iff_eq] at h
  refine parted_of_settled ⟨hno, ?_⟩ h.1.2 hquote
  rw [h.2]
  exact fun hlast => hquote (Option.some.inj hlast)

end Text

theorem Lexeme.isAtom_of_isPunctuation {t : Text} (h : t.isPunctuation) : (ofText t).isAtom = false := by
  rw [ofText]
  cases hk : Keyword.ofText? t with
  | none =>
    dsimp only
    rw [Shape.find?_of_fits (Shape.mem_all .punctuation) h]
    rfl
  | some k =>
    obtain ⟨b, hb, hkind⟩ := Keyword.head_of_mem_table _ (Keyword.mem_table_of_ofText? hk)
    obtain ⟨rest, rfl⟩ := head?_eq_some_iff.mp hb
    rcases hkind with ⟨hlower, -⟩ | ⟨-, hcategory⟩
    · simp only [isPunctuation, all_cons, Bool.and_eq_true, contains_iff_mem] at h
      rw [isLower_of_mem_signs h.2.1] at hlower
      cases hlower
    · cases k with
      | constructorWord | typeWord => simp [Keyword.category, Category.isLineMarker] at hcategory
      | _ => rfl

namespace Word

variable {w : Word} {t : Token} {line level : Nat}

/-- What a rule has cut is parted if, as a literal, it has no two minus signs together. -/
theorem IsCut.parted (h : w.IsCut) (ht : t ∈ w.tokens line level) (hcode : t.IsCode)
    (hliteral : t.category.isLiteral → t.text.NoDecrement) : t.text.Parted := by
  have hcomment : w.rule ≠ .comment := by
    intro hrule
    have hmem := (written_comment hrule line level).mem t ht
    rw [hcode.sign, hcode.raw] at hmem
    simp at hmem
  obtain ⟨b, rest, hcons, -⟩ := (h.mem_tokens hcomment ht).2
  have hne : t.text ≠ [] := by simp [hcons]
  have hcategory := h.category_mem ht hcode.raw
  rw [← Token.category_eq hcode.raw] at hcategory
  have hforms := h.forms
  rw [tokens] at ht
  -- Quotes, digits and letters are no minus signs at either end, and signs are no atoms.
  cases hrule : w.rule with
  | gap => rw [hrule] at ht; cases ht
  | comment => exact absurd hrule hcomment
  | comparator =>
    rw [hrule] at ht hforms
    rw [mem_singleton.mp ht] at hne ⊢
    refine parted_of_all (p := (· != minusSign)) rfl (all_eq_true.mpr fun c hc => ?_) hne
    rw [bne_iff_ne]
    rintro rfl
    rw [WordRule.forms, Bool.and_eq_true, all_eq_true] at hforms
    exact (mem_respaced hc).elim (fun h => absurd h (by decide)) fun h => absurd (hforms.2 _ h) (by decide)
  | string | character =>
    rw [hrule] at ht hforms hcategory
    rw [mem_singleton.mp ht] at hcategory hliteral ⊢
    exact parted_of_isBetween (by decide) hforms (hliteral (by rw [mem_singleton.mp hcategory]; rfl))
  | number =>
    have hnumber := h.isNumber hrule
    rw [hrule] at ht hcategory
    rw [mem_singleton.mp ht] at hcategory hliteral ⊢
    obtain ⟨d, rest, hd, hdigit⟩ := exists_digit_of_isNumber hnumber
    refine parted_of_settled ⟨hliteral (by rw [mem_singleton.mp hcategory]; rfl),
      getLast?_of_isNumber hnumber⟩ (congrArg List.head? hd) ?_
    rintro rfl
    exact absurd hdigit (by decide)
  | name =>
    rw [hrule] at ht hforms
    rw [mem_singleton.mp ht] at hne ⊢
    obtain ⟨b, rest, hw⟩ := h.text_eq_cons
    rw [WordRule.forms, hw, Text.isWord, Bool.and_eq_true] at hforms
    refine parted_of_all (p := continuesWord) (by decide) ?_ hne
    rw [hw, all_cons, hforms.2, continuesWord_of_startsWord hforms.1]
    rfl
  | operator =>
    have hsigns : ∀ s ∈ longSigns, s.IsChain (fun b c => b = minusSign → c ≠ minusSign) ∧
        (s.getLast? = some minusSign → s = "-") ∧ s.isPunctuation := by decide +kernel
    rw [hrule] at ht hforms
    rw [WordRule.forms, contains_iff_mem] at hforms
    rw [mem_singleton.mp ht]
    obtain ⟨hinside, hlast, hsign⟩ := hsigns _ hforms
    exact ⟨⟨hinside, hlast⟩, fun h => absurd ((Lexeme.isAtom_of_isPunctuation hsign).symm.trans h) Bool.false_ne_true⟩
  | symbol =>
    have hsigns : ∀ b ∈ shortSigns, isPunctuation [b] := all_eq_true.mp rfl
    obtain ⟨b, hb, hw⟩ := h.text_of_symbol hrule
    rw [hrule] at ht
    rw [mem_singleton.mp ht, hw]
    have hatom := Lexeme.isAtom_of_isPunctuation (hsigns b hb)
    refine ⟨⟨isChain_singleton b, fun hlast => ?_⟩, fun h => absurd (hatom.symm.trans h) Bool.false_ne_true⟩
    obtain rfl : b = minusSign := Option.some.inj hlast
    rfl

end Word

/-! ## Tokens -/

namespace Token

variable {unit source : Text} {scanned : Scanned}

/-- Words of a source are parted if no literal has two signs together. -/
theorem parted_of_scan (h : (scan unit source).outcome = .ok scanned)
    (hliterals : ∀ t ∈ scanned.tokens, t.raw ∨ t.category.isLiteral → t.text.NoDecrement) :
    ∀ t ∈ scanned.tokens, t.IsCode → t.text.Parted := by
  intro t ht hcode
  have hliteral : t.category.isLiteral → t.text.NoDecrement := fun hliteral => hliterals t ht (.inr hliteral)
  obtain ⟨rows, htokens, -, -, hfilter⟩ := scan_wordRows h
  rw [htokens] at ht
  rcases Row.mem_allTokens ht with hmarker | ⟨row, hrow, ht⟩
  · rw [hcode.marker] at hmarker
    cases hmarker
  cases row with
  | verbatim number level text =>
    have hraw := hcode.raw
    rw [mem_singleton.mp ht] at hraw
    cases hraw
  | words number level words =>
    obtain ⟨w, hw, ht⟩ := mem_flatMap.mp ht
    have hmem : Row.words number level words ∈ source.wordRows scanned.unit := by
      rw [← hfilter]
      exact mem_filter.mpr ⟨hrow, rfl⟩
    exact (Reading.isCut_of_mem_wordRows hmem w hw).parted ht hcode hliteral

def SignsApart (ts : List Token) : Prop :=
  ∀ p m n : Token, [p, m, n] <:+: ts → m.is "-" → n.is "-" → endsOperand p.text

/-- The tokens of a source are calm if its literals are and signs stand apart. -/
theorem calm_of_scan (h : (scan unit source).outcome = .ok scanned)
    (hliterals : ∀ t ∈ scanned.tokens, t.raw ∨ t.category.isLiteral → t.text.NoDecrement)
    (hsigns : SignsApart scanned.tokens) : Calm scanned.tokens where
  raw t ht hraw := hliterals t ht (.inl hraw)
  word t ht hcode := (parted_of_scan h hliterals t ht hcode).1
  apart run words hrun hcodes := by
    obtain ⟨rfl, hcode⟩ := hcodes
    refine ⟨fun p hp => ?_, fun w hw hatom => ?_⟩
    · obtain ⟨before, after, hsplit⟩ := hp
      obtain ⟨us, vs, rfl, hus, -⟩ := map_eq_append_iff.mp hsplit.symm
      obtain ⟨as, bs, rfl, -, hbs⟩ := map_eq_append_iff.mp hus
      obtain ⟨a, cs, rfl, rfl, hcs⟩ := map_eq_cons_iff.mp hbs
      obtain ⟨m, ds, rfl, hm, hds⟩ := map_eq_cons_iff.mp hcs
      obtain ⟨n, es, rfl, hn, hes⟩ := map_eq_cons_iff.mp hds
      obtain rfl := map_eq_nil_iff.mp hes
      exact hsigns a m n (List.IsInfix.trans ⟨as, vs, rfl⟩ hrun) (is_iff.mpr ⟨(hcode m (by simp)).raw, hm⟩)
        (is_iff.mpr ⟨(hcode n (by simp)).raw, hn⟩)
    · obtain ⟨t, ht, rfl⟩ := mem_map.mp hw
      exact (parted_of_scan h hliterals t (hrun.subset ht) (hcode t ht)).2 hatom

end Token

/-! ## The body -/

namespace Lined

variable {u x y : Text} {ts : List Token}

theorem joins_closing (hu : minusSign ∉ u) (c : Closing) (hx : x.Joins) : (c.fragment.render u ++ x).Joins := by
  have hline : ∀ (level : Int) {p : Text}, minusSign ∉ p →
      ((Piece.lineBreak level).render u ++ (p ++ x)).Joins := fun level p hp =>
    joins_lineBreak hu level ((settled_of_not_mem hp).append hx.inside)
  cases c with
  | block level => simpa [Closing.fragment, Piece.render] using hline level (p := ("\x7d" : String)) (by decide)
  | caseBody needsBreak level =>
    cases needsBreak with
    | true => simpa [Closing.fragment, Piece.render] using hline (level + 1) (p := ("break;" : String)) (by decide)
    | false => exact hx

/-- Text is followed by a line break or by nothing, so signs of two lines do not meet. -/
theorem noDecrement (h : Lined u ts x y) (hu : minusSign ∉ u) (hchain : ts.IsChain Token.Neighbours)
    (hbegin : ∀ t ∈ ts, t.is Marker.begin.text = false) (hcalm : Token.Calm ts) :
    x.NoDecrement ∧ ((∀ t ∈ ts.head?, t.isMarker) → x.Joins) := by
  have hnil : Text.NoDecrement [] := noDecrement_of_not_mem not_mem_nil
  induction h with
  | nil => exact ⟨hnil, fun _ => ⟨hnil, nofun⟩⟩
  | start hm => cases (hbegin _ mem_cons_self).symm.trans hm
  | @line m ts x y hm _ ih =>
    have hx := (ih (isChain_cons.mp hchain).2 (forall_mem_cons.mp hbegin).2 hcalm.tail).1
    have hjoins := joins_lineBreak hu m.level hx
    exact ⟨hjoins.inside, fun _ => hjoins⟩
  | @closing m ts x y c tag hm _ _ ih =>
    -- A case body that ends with a jump leaves nothing here, but what comes next is a marker again.
    obtain ⟨hnext, hchain⟩ := isChain_cons.mp hchain
    have hmarker : ∀ t ∈ ts.head?, t.isMarker := fun t ht => by
      rw [(hnext t ht).marker (Token.isMarker_of_mark hm), hm]
    have hx := (ih hchain (forall_mem_cons.mp hbegin).2 hcalm.tail).2 hmarker
    have hjoins := joins_closing hu c hx
    exact ⟨hjoins.inside, fun _ => hjoins⟩
  | @text run ts p x y hrun hplain hts _ ih =>
    have hx := (ih (isChain_append.mp hchain).2.1 (forall_mem_append.mp hbegin).2 hcalm.right).2 hts
    refine ⟨(hrun.noDecrement hcalm.left).join hx, fun hmarker => ?_⟩
    obtain ⟨t, rest, rfl⟩ := exists_cons_of_ne_nil hrun.nonempty
    cases (hplain t mem_cons_self).symm.trans (hmarker t rfl)
  | @raw before ts m r p q x y rs hne hbefore _ _ _ _ hp _ hts _ ih =>
    rw [← cons_append, ← cons_append, ← append_assoc] at hchain hbegin hcalm
    have hx := (ih (isChain_append.mp hchain).2.1 (forall_mem_append.mp hbegin).2 hcalm.right).2 hts
    refine ⟨(hp hu hcalm.left).join hx, fun hmarker => ?_⟩
    obtain ⟨t, rest, rfl⟩ := exists_cons_of_ne_nil hne
    cases (hbefore t mem_cons_self).1.symm.trans (hmarker t rfl)

end Lined

/-- The body of an accepted source has no two minus signs together, if no literal and no raw text
has, and if no minus sign before an operand stands right before another one. -/
theorem body_noDecrement {unit source : Text} {scanned : Scanned} {h : History}
    (hunit : ∀ b ∈ unit, Text.isIndent b = true) (hscan : (scan unit source).outcome = .ok scanned)
    (hliterals : ∀ t ∈ scanned.tokens, t.raw = true ∨ t.category.isLiteral = true → t.text.NoDecrement)
    (hsigns : Token.SignsApart scanned.tokens) (haccepts : SourceHistory.Accepts unit source h) :
    h.body.NoDecrement := by
  obtain ⟨_, hscan', hunit', hwritten⟩ := haccepts.written
  obtain rfl := Except.ok.inj (hscan.symm.trans hscan')
  have hsign : Text.minusSign ∉ h.unit := by
    rw [hunit']
    rcases scan_unit hscan with hgiven | hfound
    · exact fun hmem => absurd (hunit _ (hgiven ▸ hmem)) (by decide)
    · exact fun hmem => absurd (hfound _ hmem) (by decide)
  have hchain := Token.neighbours_of_scan hunit hscan
  have hcalm := Token.calm_of_scan hscan hliterals hsigns
  obtain ⟨hstart, hends⟩ := scan_ends hscan
  have hlined := hwritten.lined (u := h.unit) (proper_of_scan hscan) hchain hends
  obtain ⟨_, _, hsplit, -, hbegin⟩ := (laidOut_of_scan hscan).first
  rw [hstart] at hlined hchain hcalm hsplit
  obtain ⟨rfl, rfl⟩ := cons.inj hsplit
  exact ((hlined.of_begin Row.start_is).noDecrement hsign (isChain_cons.mp hchain).2 hbegin hcalm.tail).1

/-- A sign that subtracts and one before an operand, and a comment behind them. -/
theorem body_noDecrement_difference : ∃ h, SourceHistory.Accepts [] ("a = b - -c # - -\n" : String) h ∧
      h.body = ("a = b - -c; // - -\n" : String) ∧ h.body.NoDecrement := by
  have hrun : ((SourceHistory.run [] ("a = b - -c # - -\n" : String)).history.toOption.map fun h =>
      (h.stop?, h.body, h.start.stream.rest.length,
        decide (∀ t ∈ h.start.stream.rest, t.raw = true ∨ t.category.isLiteral = true →
          t.text.IsChain fun b c => b = Text.minusSign → c ≠ Text.minusSign),
        decide (∀ i < 10, h.start.stream.rest[i + 1]?.any (·.is "-") = true →
          h.start.stream.rest[i + 2]?.any (·.is "-") = true →
            h.start.stream.rest[i]?.all (fun p => endsOperand p.text) = true))) =
      some (none, Text.ofString "a = b - -c; // - -\n", 10, true, true) := by decide +kernel
  obtain ⟨h, haccepts, hparts⟩ := SourceHistory.accepts_of_map hrun
  obtain ⟨scanned, hscan, rfl⟩ := SourceHistory.history_eq haccepts.1
  simp only [Prod.mk.injEq, decide_eq_true_eq] at hparts
  obtain ⟨hbody, htokens, hliterals, hall⟩ := hparts
  refine ⟨_, haccepts, hbody, body_noDecrement (forall_mem_nil _) hscan hliterals ?_ haccepts⟩
  rintro p m n ⟨before, after, hsplit⟩ hm hn
  replace hsplit : before ++ [p, m, n] ++ after = (History.run scanned.unit scanned.tokens).start.stream.rest := hsplit
  have hlength : before.length < 10 := by
    have hlength := congrArg List.length hsplit
    rw [htokens] at hlength
    simp only [length_append, length_cons, length_nil] at hlength
    omega
  have hp := hall before.length hlength
  rw [← hsplit] at hp
  simpa [hm, hn] using hp

end Offside
