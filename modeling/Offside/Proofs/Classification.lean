/-
The category of a token is one that its rule stands for.

Rule and category are decided apart, by the bytes ahead in a line and by the text alone. Nothing but
agreement between them keeps a parser from taking a number for a name.
-/
import Offside.Proofs.Context

set_option autoImplicit false

namespace Offside

open List Text Category WordRule Keyword

namespace WordRule

def categories : WordRule → List Category
  | gap => []
  | comment => [.punctuation]
  | string => [.stringLiteral]
  | character => [.characterLiteral]
  | comparator => [.comparator]
  | number => [.numberLiteral]
  | name =>
    [.attributeWord, .comparator, .conditional, .constructorWord, .exceptionWord, .functionWord,
     .libraryWord, .logical, .statement, .typeWord, .userType, .templateType, .constant,
     .classIdentifier, .identifier]
  | operator | symbol => [.assignment, .operator, .comparator, .punctuation]

end WordRule

/-! ## Numbers -/

namespace Text

variable {t rest u : Text}

theorem dropWhile_takeWhile_append {p : UInt8 → Bool} (h : u <+: t.dropWhile p) :
    (t.takeWhile p ++ u).dropWhile p = u := by
  rw [dropWhile_append_of_pos (all_eq_true.mp all_takeWhile)]
  obtain ⟨v, hv⟩ := h
  cases u with
  | nil => rfl
  | cons b u =>
    have hb := head?_dropWhile_not p t
    rw [← hv, cons_append, head?_cons] at hb
    exact dropWhile_cons_of_neg (by rw [hb]; exact Bool.false_ne_true)

theorem exists_prefixed {mark part : UInt8 → Bool} (h : afterPrefixed? mark part t = some rest) :
    ∃ a, t = a ++ rest ∧ afterPrefixed? mark part a = some [] := by
  obtain ⟨letter, d, ds, rfl, hletter, hd, rfl⟩ := afterPrefixed?_eq_some_iff.mp h
  refine ⟨'0'.toUInt8 :: letter :: d :: ds.takeWhile part, ?_, ?_⟩
  · simp only [cons_append, takeWhile_append_dropWhile]
  · have hnil := dropWhile_takeWhile_append (List.nil_prefix (l := ds.dropWhile part))
    rw [append_nil] at hnil
    exact afterPrefixed?_eq_some_iff.mpr ⟨letter, d, _, rfl, hletter, hd, hnil.symm⟩

/-- A fraction ends where it ended before, when less follows. Where there was none the rest must not
start with the point. -/
theorem exists_fraction (t : Text) : ∃ a, t = a ++ skipFraction t ∧
    ∀ u, u <+: skipFraction t → u.head? ≠ some '.'.toUInt8 → skipLooseFraction (a ++ u) = u := by
  have hnone : ∀ u : Text, u.head? ≠ some '.'.toUInt8 → skipLooseFraction u = u := by
    intro u hu
    cases u with
    | nil => rfl
    | cons b u =>
      have hb : ¬ (b == '.'.toUInt8) := by simpa using hu
      rw [skipLooseFraction, if_neg hb]
  have hskip : ∀ t : Text, skipFraction t = t → ∃ a, t = a ++ skipFraction t ∧
      ∀ u, u <+: skipFraction t → u.head? ≠ some '.'.toUInt8 → skipLooseFraction (a ++ u) = u := by
    intro t ht
    exact ⟨[], by rw [ht]; rfl, fun u _ hu => hnone u hu⟩
  rcases t with _ | ⟨b, _ | ⟨c, t⟩⟩
  · exact hskip [] rfl
  · exact hskip [b] rfl
  by_cases hok : (b == '.'.toUInt8 && isDigit c)
  · have heq : skipFraction (b :: c :: t) = t.dropWhile isDecimalPart := by
      rw [skipFraction, if_pos hok]
    rw [Bool.and_eq_true] at hok
    have hc : isDecimalPart c := by rw [isDecimalPart, hok.2]; rfl
    refine ⟨b :: c :: t.takeWhile isDecimalPart, ?_, fun u hu _ => ?_⟩
    · rw [heq]
      simp only [cons_append, takeWhile_append_dropWhile]
    · rw [heq] at hu
      rw [cons_append, skipLooseFraction, if_pos hok.1, cons_append, dropWhile_cons_of_pos hc]
      exact dropWhile_takeWhile_append hu
  · exact hskip _ (by rw [skipFraction, if_neg hok])

theorem skipExponent_letters (h : u.all isLetter) : skipExponent u = u := by
  rcases u with _ | ⟨e, _ | ⟨b, u⟩⟩
  · rfl
  · rw [skipExponent, afterExponent?]
    split <;> rfl
  · simp only [all_cons, Bool.and_eq_true] at h
    have hdigit : isDigit b = false :=
      Bool.eq_false_iff.mpr (startsWord_spec (by rw [startsWord, h.2.1]; rfl)).2.2.1
    have hsign : (b == '+'.toUInt8 || b == '-'.toUInt8) = false := by
      rw [Bool.eq_false_iff, ne_eq, Bool.or_eq_true, beq_iff_eq, beq_iff_eq]
      rintro (rfl | rfl) <;> exact absurd h.2.1 (by decide)
    rw [skipExponent, afterExponent?]
    simp [hsign, hdigit]

theorem exists_exponent (t : Text) : ∃ a, t = a ++ skipExponent t ∧
    ∀ u, u <+: skipExponent t → u.all isLetter →
      ((a ++ u).head?.all isLetter ∧ skipExponent (a ++ u) = u) := by
  rcases hafter : afterExponent? t with _ | rest
  · -- No exponent was taken, and letters alone make none.
    have heq : skipExponent t = t := by rw [skipExponent, hafter]; rfl
    refine ⟨[], by rw [heq]; rfl, fun u _ hu => ⟨?_, skipExponent_letters hu⟩⟩
    cases u with
    | nil => rfl
    | cons b u =>
      simp only [all_cons, Bool.and_eq_true] at hu
      exact hu.1
  · have heq : skipExponent t = rest := by rw [skipExponent, hafter]; rfl
    rw [heq]
    obtain ⟨e, sign, d, ds, rfl, he, -, -, rfl, hagain⟩ := exists_digits hafter
    refine ⟨e :: (sign ++ d :: ds.takeWhile isDigit), ?_, fun u hu _ => ⟨he, ?_⟩⟩
    · simp only [cons_append, append_assoc, takeWhile_append_dropWhile]
    · have hassoc : e :: (sign ++ d :: ds.takeWhile isDigit) ++ u =
          e :: (sign ++ d :: (ds.takeWhile isDigit ++ u)) := by
        simp only [cons_append, append_assoc]
      rw [hassoc, skipExponent, hagain, Option.getD_some]
      exact dropWhile_takeWhile_append hu

/-- What the scanner reads as a number is one by its form. -/
theorem exists_number (h : afterNumber? t = some rest) : ∃ a, t = a ++ rest ∧ isNumber a := by
  unfold afterNumber? at h
  split at h
  · next hhex =>
    cases h
    obtain ⟨a, rfl, ha⟩ := exists_prefixed hhex
    exact ⟨a, rfl, by rw [isNumber, ha]; rfl⟩
  split at h
  · next hbinary =>
    cases h
    obtain ⟨a, rfl, ha⟩ := exists_prefixed hbinary
    refine ⟨a, rfl, ?_⟩
    rw [isNumber, ha, Option.map_some, Option.getD_some, Bool.or_eq_true, Bool.or_eq_true]
    exact .inl (.inr rfl)
  split at h
  swap
  · cases h
  next d t _ _ =>
  split at h
  swap
  · cases h
  next hd =>
  cases h
  obtain ⟨fraction, hfraction, hloose⟩ := exists_fraction (t.dropWhile isDecimalPart)
  obtain ⟨exponent, hexponent, hskip⟩ := exists_exponent (skipFraction (t.dropWhile isDecimalPart))
  obtain ⟨suffix, hsuffix, hletters⟩ :=
    exists_suffix (skipExponent (skipFraction (t.dropWhile isDecimalPart)))
  -- Each part is followed by less than in the line, but by a beginning of what it was.
  have hsuffixed := prefix_append suffix (skipSuffix (skipExponent (skipFraction
    (t.dropWhile isDecimalPart))))
  rw [← hsuffix] at hsuffixed
  have hexponented : exponent ++ suffix <+: skipFraction (t.dropWhile isDecimalPart) := by
    rw [hexponent]
    exact (prefix_append_right_inj exponent).mpr hsuffixed
  have hfractioned : fraction ++ (exponent ++ suffix) <+: t.dropWhile isDecimalPart := by
    rw [hfraction]
    exact (prefix_append_right_inj fraction).mpr hexponented
  have hall : suffix.all isLetter := by
    rw [isNumberSuffix, Bool.and_eq_true] at hletters
    exact hletters.2
  obtain ⟨hhead, hexp⟩ := hskip suffix hsuffixed hall
  have hpoint : (exponent ++ suffix).head? ≠ some '.'.toUInt8 := by
    intro hpoint
    rw [hpoint] at hhead
    exact absurd hhead (by decide)
  refine ⟨d :: (t.takeWhile isDecimalPart ++ (fraction ++ (exponent ++ suffix))), ?_, ?_⟩
  · rw [cons_append, append_assoc, append_assoc, append_assoc, ← hsuffix,
      ← hexponent, ← hfraction, takeWhile_append_dropWhile]
  · have hdecimal : isDecimalNumber
        (d :: (t.takeWhile isDecimalPart ++ (fraction ++ (exponent ++ suffix)))) := by
      rw [isDecimalNumber, hd, dropWhile_takeWhile_append hfractioned, hloose _ hexponented hpoint, hexp, hletters]
      rfl
    rw [isNumber, hdecimal, Bool.or_true]

end Text

/-! ## Texts of one form have one of the categories -/

variable {line level : Nat} {b : UInt8} {rest : Text} {e : Text × Keyword}

/-- A keyword that starts as a name has a category of names. -/
theorem Keyword.category_of_word (he : e ∈ table) (htext : e.1 = b :: rest) (hb : startsWord b) :
    e.2.category ∈ WordRule.name.categories := by
  obtain ⟨b', hhead, hkind⟩ := head_of_mem_table e he
  rw [htext] at hhead
  obtain rfl := Option.some.inj hhead
  rcases hkind with ⟨-, hmarker, hno⟩ | ⟨hsign, -⟩
  · cases hk : e.2 with
    | marker m => rw [hk] at hmarker; cases m <;> cases hmarker
    | assignment | operator => rw [hk] at hno; exact absurd (by decide) hno
    | _ => simp [category, categories]
  · rw [startsWord_of_mem_signs hsign] at hb
    cases hb

/-- A keyword of signs is a line marker or has a category of symbols. -/
theorem Keyword.category_of_sign (he : e ∈ table) (htext : e.1 = b :: rest) (hb : b ∈ signs) :
    e.2.category.isLineMarker ∨ e.2.category ∈ WordRule.symbol.categories := by
  obtain ⟨b', hhead, hkind⟩ := head_of_mem_table e he
  rw [htext] at hhead
  obtain rfl := Option.some.inj hhead
  rcases hkind with ⟨hlower, -⟩ | ⟨-, hcategory⟩
  · rw [isLower_of_mem_signs hb] at hlower
    cases hlower
  · exact hcategory.imp_right fun hmem => List.Subset.trans (by decide) (List.Subset.refl _) hmem

theorem Keyword.isPunctuation_of_isLineMarker (he : e ∈ table) (h : e.2.category.isLineMarker) :
    e.1.isPunctuation = false := by
  obtain ⟨text, k⟩ := e
  cases k with
  | marker m =>
    rw [text_of_mem_table _ he _ rfl]
    cases m <;> decide
  | _ => cases h

variable {t : Text} {w : Word}

namespace Category

/-- The category of a text comes from a keyword, from a shape, or is the default. -/
theorem ofText_cases (t : Text) : (∃ e ∈ table, e.1 = t ∧ ofText t = e.2.category) ∨
      (∃ s : Shape, s.fits t ∧ ofText t = s.category) ∨
      (∀ s : Shape, s.fits t = false) ∧ ofText t = .identifier := by
  rw [ofText, Lexeme.ofText]
  cases hk : ofText? t with
  | some k => exact .inl ⟨(t, k), mem_table_of_ofText? hk, rfl, rfl⟩
  | none =>
    right
    dsimp only
    cases hs : Shape.all.find? (·.fits t) with
    | some s => exact .inl ⟨s, find?_some (p := fun s : Shape => s.fits t) hs, rfl⟩
    | none =>
      refine .inr ⟨fun s => ?_, rfl⟩
      simpa using find?_eq_none.mp hs s s.mem_all

theorem ofText_eq_templateType_iff : ofText t = .templateType ↔ t.isTemplateType := by
  constructor
  · intro h
    rcases ofText_cases t with ⟨e, he, -, hcategory⟩ | ⟨s, hs, hcategory⟩ | ⟨-, hcategory⟩
    · have hall : ∀ e ∈ table, e.2.category ≠ .templateType := by decide
      exact absurd (hcategory.symm.trans h) (hall e he)
    · rw [h] at hcategory
      cases s <;> first | exact hs | cases hcategory
    · rw [h] at hcategory
      cases hcategory
  · intro h
    rw [isTemplateType, Bool.and_eq_true, beq_iff_eq] at h
    obtain ⟨b, rfl⟩ := length_eq_one_iff.mp h.1
    rw [ofText, ofText_of_isUpper (all_eq_true.mp h.2 b mem_cons_self)]
    rfl

/-- A word is a keyword or a name. It is neither quoted nor a number nor made of signs, since none
of these starts like a word. -/
theorem ofText_word (h : t.isWord) : ofText t ∈ WordRule.name.categories := by
  obtain ⟨b, rest, rfl, hb⟩ : ∃ b rest, t = b :: rest ∧ startsWord b := by
    cases t with
    | nil => cases h
    | cons b rest =>
      rw [Text.isWord, Bool.and_eq_true] at h
      exact ⟨b, rest, rfl, h.1⟩
  rcases ofText_cases (b :: rest) with ⟨e, he, htext, hcategory⟩ | ⟨s, hs, hcategory⟩ | ⟨-, hcategory⟩
  · rw [hcategory]
    exact category_of_word he htext hb
  · obtain ⟨hstring, hcharacter, hdigit, hsign⟩ := startsWord_spec hb
    rw [hcategory]
    by_cases hupper : isUpper b
    · rw [Shape.eq_candidate hs, Shape.candidate_of_isUpper hupper]
      split
      · decide
      · split <;> decide
    · have hs' : s = .punctuation := by
        rw [Shape.eq_candidate hs, Shape.candidate, if_neg hstring, if_neg hcharacter, if_neg hdigit, if_neg hupper]
      subst hs'
      simp only [Shape.fits, isPunctuation, all_cons, Bool.and_eq_true, contains_iff_mem] at hs
      exact absurd hs.2.1 hsign
  · rw [hcategory]
    decide

theorem ofText_signs (h : t.isPunctuation) : ofText t ∈ WordRule.symbol.categories := by
  obtain ⟨b, rest, rfl, hb⟩ : ∃ b rest, t = b :: rest ∧ b ∈ signs := by
    cases t with
    | nil => cases h
    | cons b rest =>
      simp only [isPunctuation, all_cons, Bool.and_eq_true, contains_iff_mem] at h
      exact ⟨b, rest, rfl, h.2.1⟩
  rcases ofText_cases (b :: rest) with ⟨e, he, htext, hcategory⟩ | ⟨s, hs, hcategory⟩ | ⟨hnone, -⟩
  · rw [hcategory]
    refine (category_of_sign he htext hb).resolve_left fun hmarker => ?_
    have hno := isPunctuation_of_isLineMarker he hmarker
    rw [htext, h] at hno
    cases hno
  · obtain rfl : s = .punctuation := Shape.eq_of_fits hs h
    rw [hcategory]
    decide
  · have hno : isPunctuation (b :: rest) = false := hnone .punctuation
    rw [h] at hno
    cases hno

end Category

/-! ## Tokens -/

namespace Word

theorem respaced_pair {first second gap : Text} (hfirst : ∀ b ∈ first, isIndent b = false)
    (hsecond : ∀ b ∈ second, isIndent b = false) (hgap : gap.all isIndent)
    (hne : gap ≠ []) : respaced (first ++ (gap ++ second)) = first ++ " " ++ second := by
  have htake : (first ++ (gap ++ second)).takeWhile (fun b => !isIndent b) = first := by
    obtain ⟨b, gap, rfl⟩ := exists_cons_of_ne_nil hne
    rw [all_cons, Bool.and_eq_true] at hgap
    rw [takeWhile_append_of_pos (fun b hb => by rw [hfirst b hb]; rfl), cons_append,
      takeWhile_cons_of_neg (by rw [hgap.1]; decide), append_nil]
  have hdrop : second.dropWhile isIndent = second := by
    cases second with
    | nil => rfl
    | cons b second =>
      exact dropWhile_cons_of_neg (by rw [hsecond b mem_cons_self]; decide)
  rw [respaced, htake, drop_left, dropWhile_append_of_pos (all_eq_true.mp hgap), hdrop]

theorem IsCut.respaced_text (h : w.IsCut) (hrule : w.rule = .comparator) :
    ∃ pair ∈ comparatorWords, ∃ gap, gap ≠ [] ∧ w.text = pair.1 ++ (gap ++ pair.2) ∧
      respaced w.text = pair.1 ++ " " ++ pair.2 := by
  obtain ⟨b, rest, n, hfirst, htext⟩ := h
  obtain ⟨rfl, hpos⟩ := first?_spec hfirst
  rw [hrule] at htext hpos
  obtain ⟨first, second, gap, hmem, hgap, hne, htake⟩ := take_comparator hpos
  obtain ⟨hone, htwo, -⟩ := comparatorWords_spec hmem
  rw [htext, htake]
  exact ⟨_, hmem, gap, hne, rfl, respaced_pair hone htwo hgap hne⟩

theorem IsCut.comparator_category (h : w.IsCut) (hrule : w.rule = .comparator) :
    ofText (respaced w.text) = .comparator := by
  obtain ⟨pair, hmem, -, -, -, hrespaced⟩ := h.respaced_text hrule
  rw [hrespaced, (comparatorWords_spec hmem).2.2]

theorem IsCut.isNumber (h : w.IsCut) (hrule : w.rule = .number) : w.text.isNumber := by
  obtain ⟨b, rest, n, hfirst, htext⟩ := h
  obtain ⟨rfl, hpos⟩ := first?_spec hfirst
  rw [hrule, WordRule.length] at htext hpos
  rcases hafter : afterNumber? (b :: rest) with _ | tail
  · rw [hafter] at hpos
    cases hpos
  · obtain ⟨a, hsplit, ha⟩ := exists_number hafter
    rw [hafter, hsplit, Option.map_some, Option.getD_some, length_append, Nat.add_sub_cancel,
      take_left] at htext
    rwa [htext]

/-- A token of a word that was cut has a category of the word's rule. -/
theorem IsCut.category_mem (h : w.IsCut) {t : Token} (ht : t ∈ w.tokens line level) (hraw : t.raw = false) :
    ofText t.text ∈ w.rule.categories := by
  by_cases hcomment : w.rule = .comment
  · rw [hcomment, text_of_comment hcomment ht hraw, ofText]
    rcases commentSign_cases w.text with hs | hs <;> rw [hs, Lexeme.ofText_sign (by decide)] <;> decide
  by_cases hcomparator : w.rule = .comparator
  · rw [tokens, hcomparator] at ht
    rw [mem_singleton.mp ht, hcomparator, h.comparator_category hcomparator]
    decide
  -- Any other token has the text that was cut.
  obtain ⟨hgap, text, htext, rfl⟩ := eq_of_mem_tokens hcomment ht
  dsimp only
  rw [htext.resolve_right fun hrespaced => hcomparator hrespaced.1]
  have hforms := h.forms
  cases hrule : w.rule with
  | gap => exact absurd hrule hgap
  | comment => exact absurd hrule hcomment
  | string =>
    rw [hrule] at hforms
    rw [ofText_of_fits (s := .stringLiteral) (by decide) hforms]
    decide
  | character =>
    rw [hrule] at hforms
    rw [ofText_of_fits (s := .characterLiteral) (by decide) hforms]
    decide
  | comparator => exact absurd hrule hcomparator
  | number =>
    rw [ofText_of_fits (s := .numberLiteral) (by decide) (h.isNumber hrule)]
    decide
  | name =>
    rw [hrule] at hforms
    exact ofText_word hforms
  | operator =>
    have hsigns : ∀ t ∈ longSigns, t.isPunctuation := all_eq_true.mp rfl
    rw [hrule, WordRule.forms, contains_iff_mem] at hforms
    exact ofText_signs (hsigns _ hforms)
  | symbol =>
    have hsigns : ∀ b ∈ shortSigns, isPunctuation [b] := all_eq_true.mp rfl
    obtain ⟨b, hb, hw⟩ := h.text_of_symbol hrule
    rw [hw]
    exact ofText_signs (hsigns b hb)

end Word

def Text.Produces (source unit : Text) (w : Word) (t : Token) : Prop :=
  ∃ number level words, Row.words number level words ∈ source.wordRows unit ∧ w ∈ words ∧
    t ∈ w.tokens number level

theorem Reading.isCut_of_mem_wordRows {unit : Text} {opener : Option Nat} {number : Nat} {lines : List Text}
    {words : List Word} (h : Row.words line level words ∈ Reading.wordRows unit opener number lines) :
    ∀ w ∈ words, w.IsCut := by
  induction lines generalizing opener number with
  | nil => cases h
  | cons text lines ih =>
    rw [Reading.wordRows] at h
    split at h
    · exact ih h
    · rcases mem_cons.mp h with h | h
      · obtain ⟨-, -, rfl⟩ := Row.words.inj h
        cases hcut : Word.cut (Reading.content text) with
        | ok words => exact (Word.cut_spec hcut).2
        | error tail => exact fun w hw => absurd hw not_mem_nil
      · exact ih h

/-- Scanner and categories agree: a token that is neither raw nor a marker comes from a word of the
source, and from no word whose rule stands for other categories than that of the token. -/
theorem category_of_scanned {unit source : Text} {scanned : Scanned} {t : Token}
    (h : (scan unit source).outcome = .ok scanned) (ht : t ∈ scanned.tokens) (hraw : t.raw = false)
    (hmarker : t.isMarker = false) : (∃ w, source.Produces scanned.unit w t) ∧
      ∀ w, source.Produces scanned.unit w t → Category.ofText t.text ∈ w.rule.categories := by
  constructor
  · obtain ⟨rows, htokens, -, -, hfilter⟩ := scan_wordRows h
    rw [htokens] at ht
    rcases Row.mem_allTokens ht with hm | ⟨row, hrow, ht⟩
    · rw [hm] at hmarker
      cases hmarker
    cases row with
    | verbatim number level text =>
      -- The only token of a verbatim row is raw.
      rw [mem_singleton.mp ht] at hraw
      cases hraw
    | words number level words =>
      obtain ⟨w, hw, ht⟩ := mem_flatMap.mp ht
      refine ⟨w, number, level, words, ?_, hw, ht⟩
      rw [← hfilter]
      exact mem_filter.mpr ⟨hrow, rfl⟩
  · rintro w ⟨number, level, words, hrow, hw, ht⟩
    exact (Reading.isCut_of_mem_wordRows hrow w hw).category_mem ht hraw

/-- The number of `x = 1.5e3f..y`, which is followed by a sign that starts like a fraction. -/
theorem category_of_scanned_number :
    ∃ scanned t, (scan [] ("x = 1.5e3f..y\n" : String)).outcome = .ok scanned ∧ t ∈ scanned.tokens ∧
      t.text = ("1.5e3f" : Text) ∧ t.raw = false ∧ t.isMarker = false ∧
      (∃ w, ("x = 1.5e3f..y\n" : Text).Produces scanned.unit w t) ∧
      ∀ w, ("x = 1.5e3f..y\n" : Text).Produces scanned.unit w t →
        Category.ofText t.text ∈ w.rule.categories := by
  have hany : ((scan [] ("x = 1.5e3f..y\n" : String)).outcome.toOption.any fun scanned =>
      scanned.tokens.any fun t => t.is "1.5e3f") = true := by decide +kernel
  rcases hscan : (scan [] ("x = 1.5e3f..y\n" : String)).outcome with e | scanned
  · rw [hscan] at hany
    cases hany
  · rw [hscan] at hany
    obtain ⟨t, ht, hword⟩ := any_eq_true.mp hany
    obtain ⟨hraw, htext⟩ := Token.is_iff.mp hword
    have hmarker : t.isMarker = false := by
      rw [Token.isMarker_of_is hword]
      decide
    exact ⟨scanned, t, rfl, ht, htext, hraw, hmarker, category_of_scanned hscan ht hraw hmarker⟩

end Offside
