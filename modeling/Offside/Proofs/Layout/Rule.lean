/-
What the words of a line are made of.

Each rule takes texts of one form, listed in `WordRule.forms`, and what is needed of the texts of
tokens follows from the form. Who changes what a rule takes sees from the case that fails who relied
on it.
-/
import Offside.Proofs.Bracket
import Offside.Proofs.Layout.Word
import Offside.Proofs.Spelling.Clause

set_option autoImplicit false

namespace Offside

open List Text Category WordRule

/-! ## Forms -/

namespace Text

def isNumberPart (b : UInt8) : Bool :=
  continuesWord b || b == '.'.toUInt8 || b == '+'.toUInt8 || b == '-'.toUInt8

end Text

namespace WordRule

def forms : WordRule → Text → Bool
  | gap, t => t.all isGap
  | comment, t => t.head? == some '#'.toUInt8
  | string, t => isBetween '"'.toUInt8 t
  | character, t => isBetween '\''.toUInt8 t
  | comparator, t =>
    (t.head?.map isLetter).getD false && t.all fun b => isLetter b || isIndent b
  | number, t => t.all isNumberPart
  | name, t => t.isWord
  | operator, t => Text.longSigns.contains t
  | symbol, t => t.length == 1 && t.all Text.shortSigns.contains

end WordRule

variable {t : Text} {w : Word} {b quote : UInt8}
variable {line level : Nat} {rest first second : Text}

namespace Text

theorem getLast?_take_closingQuote {n : Nat} (h : closingQuote? quote t = some n) :
    (t.take n).getLast? = some quote := by
  fun_induction closingQuote? quote t generalizing n with
  | case1 => cases h
  | case2 => cases h; rfl
  | case3 => cases h
  | case4 => cases h; rfl
  | case5 c rest _ ih | case6 b c rest _ _ ih =>
    obtain ⟨m, hm, rfl⟩ := Option.map_eq_some_iff.mp h
    simp [getLast?_cons, ih hm]

theorem isBetween_take_quotedLength (h : 0 < quotedLength quote t) :
    isBetween quote (t.take (quotedLength quote t)) := by
  cases t with
  | nil => simp [quotedLength] at h
  | cons b rest =>
    rw [quotedLength] at h ⊢
    by_cases hb : b = quote
    · rcases hclose : closingQuote? quote rest with _ | n
      · simp [hclose] at h
      · have hlast := getLast?_take_closingQuote hclose
        have hpos : 0 < (rest.take n).length := by
          refine length_pos_of_ne_nil fun hnil => ?_
          rw [hnil] at hlast
          cases hlast
        simp [isBetween, hb, getLast?_cons, hlast] at hpos ⊢
        omega
    · rw [if_neg hb] at h
      omega

/-- A rule for two words takes them and what is between them. No word byte follows. -/
theorem twoWordLength_spec (h : 0 < twoWordLength first second t) :
    ∃ gap tail, gap.all isIndent ∧ gap ≠ [] ∧ (tail.head?.map continuesWord).getD false = false ∧
      t = first ++ (gap ++ second) ++ tail ∧ twoWordLength first second t = (first ++ (gap ++ second)).length := by
  unfold twoWordLength after? at h ⊢
  by_cases hfirst : first.isPrefixOf t
  · simp only [if_pos hfirst] at h ⊢
    obtain ⟨rest, rfl⟩ := List.isPrefixOf_iff_prefix.mp hfirst
    rw [drop_left] at h ⊢
    by_cases hsecond : second.isPrefixOf (rest.drop (rest.takeWhile isIndent).length)
    · simp only [if_pos hsecond] at h ⊢
      obtain ⟨tail, htail⟩ := List.isPrefixOf_iff_prefix.mp hsecond
      rw [← htail, drop_left] at h ⊢
      split at h
      · omega
      · next hend =>
        rw [if_neg hend]
        rw [Bool.or_eq_true, not_or, Bool.not_eq_true, Bool.not_eq_true] at hend
        have hrest : rest.takeWhile isIndent ++ (second ++ tail) = rest := by
          rw [htail]
          exact (prefix_append_drop (List.takeWhile_prefix _)).symm
        refine ⟨rest.takeWhile isIndent, tail, all_takeWhile, isEmpty_eq_false_iff.mp hend.1, hend.2, ?_, ?_⟩
        · rw [append_assoc, append_assoc, hrest]
        · simp only [length_append]
          omega
    · simp only [if_neg hsecond] at h
      omega
  · simp only [if_neg hfirst] at h
    omega

/-! ## Numbers -/

section

variable {b : UInt8}

theorem isNumberPart_of_continuesWord (h : continuesWord b) : isNumberPart b := by
  simp [isNumberPart, h]

theorem continuesWord_of_startsWord (h : startsWord b) : continuesWord b := by
  simp [continuesWord, h]

theorem isNumberPart_of_isLetter (h : isLetter b) : isNumberPart b :=
  isNumberPart_of_continuesWord (continuesWord_of_startsWord (by simp [startsWord, h]))

theorem isNumberPart_of_isDigit (h : isDigit b) : isNumberPart b :=
  isNumberPart_of_continuesWord (by simp [continuesWord, h])

theorem isNumberPart_of_isDecimalPart (h : isDecimalPart b) : isNumberPart b := by
  rw [isDecimalPart, Bool.or_eq_true, beq_iff_eq] at h
  rcases h with h | rfl
  · exact isNumberPart_of_isDigit h
  · decide

theorem isGap_of_isNumberPart : ∀ b, isNumberPart b → isGap b = false ∧ b ≠ '\n'.toUInt8 := by decide +kernel

theorem isNumberPart_of_prefixed : ∀ b : UInt8,
    (isHexMark b || isHexPart b || isBinaryMark b || isBinaryPart b) → isNumberPart b := by
  decide +kernel

end

def NumberLeaves (t rest : Text) : Prop := ∃ a, t = a ++ rest ∧ a.all isNumberPart

namespace NumberLeaves

variable {t rest tail : Text}

theorem refl (t : Text) : NumberLeaves t t := ⟨[], rfl, rfl⟩

theorem trans (h : NumberLeaves t rest) (h' : NumberLeaves rest tail) : NumberLeaves t tail := by
  obtain ⟨a, rfl, ha⟩ := h
  obtain ⟨b, rfl, hb⟩ := h'
  exact ⟨a ++ b, (append_assoc ..).symm, by rw [all_append, ha, hb]; rfl⟩

theorem cons (hb : isNumberPart b) (h : NumberLeaves t rest) : NumberLeaves (b :: t) rest := by
  obtain ⟨a, rfl, ha⟩ := h
  exact ⟨b :: a, rfl, by rw [all_cons, hb, ha]; rfl⟩

theorem dropWhile {p : UInt8 → Bool} (t : Text) (hp : ∀ b, p b → isNumberPart b) :
    NumberLeaves t (t.dropWhile p) := by
  refine ⟨t.takeWhile p, takeWhile_append_dropWhile.symm, ?_⟩
  refine all_eq_true.mpr fun b hb => hp b ?_
  exact all_eq_true.mp all_takeWhile b hb

theorem take (h : NumberLeaves t rest) : (t.take (t.length - rest.length)).all isNumberPart := by
  obtain ⟨a, rfl, ha⟩ := h
  rw [length_append, Nat.add_sub_cancel, take_left]
  exact ha

end NumberLeaves

theorem numberLeaves_prefixed {mark part : UInt8 → Bool} (hmark : ∀ b, mark b → isNumberPart b)
    (hpart : ∀ b, part b → isNumberPart b) (h : afterPrefixed? mark part t = some rest) :
    NumberLeaves t rest := by
  obtain ⟨letter, d, ds, rfl, hletter, hd, rfl⟩ := afterPrefixed?_eq_some_iff.mp h
  exact .cons (by decide) (.cons (hmark letter hletter) (.cons (hpart d hd) (.dropWhile ds hpart)))

theorem numberLeaves_fraction (t : Text) : NumberLeaves t (skipFraction t) := by
  rw [skipFraction.eq_def]
  split
  · next b c rest =>
    split
    · next hok =>
      simp only [Bool.and_eq_true, beq_iff_eq] at hok
      obtain ⟨rfl, hc⟩ := hok
      exact .cons (by decide) (.cons (isNumberPart_of_isDigit hc)
        (.dropWhile rest fun b => isNumberPart_of_isDecimalPart))
    · exact .refl _
  · exact .refl _

/-- An exponent is a letter, perhaps a sign, and digits. -/
theorem exists_digits (h : afterExponent? t = some rest) : ∃ (e : UInt8) (sign : Text) (d : UInt8) (ds : Text),
    t = e :: (sign ++ d :: ds) ∧ isLetter e ∧ (∀ b ∈ sign, b = '+'.toUInt8 ∨ b = '-'.toUInt8) ∧ isDigit d ∧
      rest = ds.dropWhile isDigit ∧
      ∀ us : Text, afterExponent? (e :: (sign ++ d :: us)) = some (us.dropWhile isDigit) := by
  have hmark : ∀ e : UInt8, (e == 'e'.toUInt8 || e == 'E'.toUInt8) → isLetter e := by
    intro e he
    rw [Bool.or_eq_true, beq_iff_eq, beq_iff_eq] at he
    rcases he with rfl | rfl <;> decide
  have hnosign : ∀ b, isDigit b → (b == '+'.toUInt8 || b == '-'.toUInt8) = false := by
    intro b hb
    rw [Bool.eq_false_iff, ne_eq, Bool.or_eq_true, beq_iff_eq, beq_iff_eq]
    rintro (rfl | rfl) <;> exact absurd hb (by decide)
  rw [afterExponent?.eq_def] at h
  cases t with
  | nil => cases h
  | cons e t =>
    by_cases he : (e == 'e'.toUInt8 || e == 'E'.toUInt8)
    swap
    · simp only [if_neg he] at h
      cases h
    simp only [if_pos he] at h
    rcases t with _ | ⟨s, t⟩
    · cases h
    -- Without a sign the first digit stands in its place.
    by_cases hs : (s == '+'.toUInt8 || s == '-'.toUInt8)
    · simp only [if_pos hs] at h
      rcases t with _ | ⟨d, ds⟩
      · cases h
      by_cases hd : isDigit d
      · refine ⟨e, [s], d, ds, rfl, hmark e he, ?_, hd, ?_, fun us => ?_⟩
        · simpa using hs
        · simpa [hd, eq_comm] using h
        · rw [afterExponent?.eq_def]
          simp [he, hs, hd]
      · simp [hd] at h
    · simp only [if_neg hs] at h
      by_cases hd : isDigit s
      · refine ⟨e, [], s, t, rfl, hmark e he, forall_mem_nil _, hd, ?_, fun us => ?_⟩
        · simpa [hd, eq_comm] using h
        · rw [afterExponent?.eq_def]
          simp [he, hnosign s hd, hd]
      · simp [hd] at h

theorem numberLeaves_exponent (t : Text) : NumberLeaves t (skipExponent t) := by
  rw [skipExponent]
  cases hafter : afterExponent? t with
  | none => exact .refl t
  | some rest =>
    obtain ⟨e, sign, d, ds, rfl, he, hsign, hd, rfl, -⟩ := exists_digits hafter
    have hsigns : sign.all isNumberPart := all_eq_true.mpr fun b hb => by
      rcases hsign b hb with rfl | rfl <;> decide
    refine .cons (isNumberPart_of_isLetter he) (.trans ⟨sign, rfl, hsigns⟩ ?_)
    exact .cons (isNumberPart_of_isDigit hd) (.dropWhile ds fun b => isNumberPart_of_isDigit)

theorem exists_suffix (t : Text) : ∃ a, t = a ++ skipSuffix t ∧ isNumberSuffix a := by
  refine ⟨t.take (min 2 (t.takeWhile isLetter).length), (take_append_drop _ _).symm, ?_⟩
  rw [isNumberSuffix, Bool.and_eq_true]
  constructor
  · rw [decide_eq_true_iff, length_take]
    omega
  · refine all_eq_true.mpr fun b hb => all_eq_true.mp (all_takeWhile (l := t)) b ?_
    rw [prefix_iff_eq_take.mp (List.takeWhile_prefix (l := t) isLetter)]
    exact (take_subset_take_left t (Nat.min_le_right _ _)) hb

theorem numberLeaves_suffix (t : Text) : NumberLeaves t (skipSuffix t) := by
  obtain ⟨a, ht, ha⟩ := exists_suffix t
  rw [isNumberSuffix, Bool.and_eq_true] at ha
  exact ⟨a, ht, all_eq_true.mpr fun b hb => isNumberPart_of_isLetter (all_eq_true.mp ha.2 b hb)⟩

/-- A number is made of letters, digits, points and signs. -/
theorem numberLeaves_of_afterNumber? (h : afterNumber? t = some rest) : NumberLeaves t rest := by
  unfold afterNumber? at h
  split at h
  · next hhex =>
    cases h
    exact numberLeaves_prefixed (fun b hb => isNumberPart_of_prefixed b (by simp [hb]))
      (fun b hb => isNumberPart_of_prefixed b (by simp [hb])) hhex
  split at h
  · next hbinary =>
    cases h
    exact numberLeaves_prefixed (fun b hb => isNumberPart_of_prefixed b (by simp [hb]))
      (fun b hb => isNumberPart_of_prefixed b (by simp [hb])) hbinary
  split at h
  · next d t _ _ =>
    split at h
    · next hd =>
      cases h
      refine .cons (isNumberPart_of_isDigit hd) ?_
      exact (((NumberLeaves.dropWhile t fun b => isNumberPart_of_isDecimalPart).trans
        (numberLeaves_fraction _)).trans (numberLeaves_exponent _)).trans (numberLeaves_suffix _)
    · cases h
  · cases h

end Text

namespace WordRule

/-! ## Every rule takes its form -/

theorem forms_comparator {gap : Text} (hfirst : first.all isLetter) (hne : first ≠ [])
    (hsecond : second.all isLetter) (hgap : gap.all isIndent) :
    comparator.forms (first ++ (gap ++ second)) := by
  obtain ⟨b, rest, rfl⟩ := exists_cons_of_ne_nil hne
  simp only [all_cons, Bool.and_eq_true, all_eq_true] at hfirst hsecond hgap
  simp only [forms, cons_append, head?_cons, Option.map_some, Option.getD_some,
    all_cons, all_append, Bool.and_eq_true, all_eq_true, Bool.or_eq_true]
  exact ⟨hfirst.1, .inl hfirst.1, fun c hc => .inl (hfirst.2 c hc),
    fun c hc => .inr (hgap c hc), fun c hc => .inl (hsecond c hc)⟩

theorem comparatorWords_letters : ∀ pair ∈ comparatorWords, pair.1.all isLetter ∧ pair.1 ≠ [] ∧
    pair.2.all isLetter := by decide

theorem comparatorWords_spec {pair : Text × Text} (h : pair ∈ comparatorWords) :
    (∀ b ∈ pair.1, isIndent b = false) ∧ (∀ b ∈ pair.2, isIndent b = false) ∧
      ofText (pair.1 ++ " " ++ pair.2) = .comparator := by
  have hindent : ∀ b, isLetter b → isIndent b = false := by decide +kernel
  have htext : ∀ pair ∈ comparatorWords, ∃ c ∈ Comparator.all, pair.1 ++ " " ++ pair.2 = c.text := by decide +kernel
  obtain ⟨hfirst, -, hsecond⟩ := comparatorWords_letters pair h
  refine ⟨fun b hb => hindent b (all_eq_true.mp hfirst b hb),
    fun b hb => hindent b (all_eq_true.mp hsecond b hb), ?_⟩
  obtain ⟨c, -, hc⟩ := htext pair h
  rw [ofText, Lexeme.ofText_eq_comparator_iff.mpr hc]
  rfl

/-- A comparator is a pair of the table with blanks between. -/
theorem comparator_spec (h : 0 < comparator.length t) :
    ∃ first second gap tail, (first, second) ∈ comparatorWords ∧ gap.all isIndent ∧ gap ≠ [] ∧
      (tail.head?.map continuesWord).getD false = false ∧ t = first ++ (gap ++ second) ++ tail ∧
      comparator.length t = (first ++ (gap ++ second)).length := by
  obtain ⟨first, second, hmem, hn⟩ : ∃ first second, (first, second) ∈ comparatorWords ∧
      comparator.length t = twoWordLength first second t := by
    -- The longest of the three is one of them.
    rcases max_choice (twoWordLength "less" "than" t)
      (max (twoWordLength "more" "than" t) (twoWordLength "equal" "to" t)) with hmax | hmax
    · exact ⟨_, _, mem_cons_self, hmax⟩
    rcases max_choice (twoWordLength "more" "than" t)
      (twoWordLength "equal" "to" t) with hmax' | hmax'
    · exact ⟨_, _, mem_cons_of_mem _ mem_cons_self, hmax.trans hmax'⟩
    · exact ⟨_, _, mem_cons_of_mem _ (mem_cons_of_mem _ mem_cons_self), hmax.trans hmax'⟩
  rw [hn] at h ⊢
  obtain ⟨gap, tail, hspec⟩ := twoWordLength_spec h
  exact ⟨first, second, gap, tail, hmem, hspec⟩

theorem take_comparator (h : 0 < comparator.length t) :
    ∃ first second gap, (first, second) ∈ comparatorWords ∧ gap.all isIndent ∧ gap ≠ [] ∧
      t.take (comparator.length t) = first ++ (gap ++ second) := by
  obtain ⟨first, second, gap, tail, hmem, hgap, hne, -, ht, hlength⟩ := comparator_spec h
  refine ⟨first, second, gap, hmem, hgap, hne, ?_⟩
  rw [hlength, ht, take_left]

/-- Every rule takes a text of its form. -/
theorem forms_take {rule : WordRule} (h : 0 < rule.length t) : rule.forms (t.take (rule.length t)) := by
  cases rule with
  | gap =>
    rw [length, ← prefix_iff_eq_take.mp (List.takeWhile_prefix _)]
    exact all_takeWhile
  | comment =>
    rw [length] at h ⊢
    split at h
    · next hhash =>
      rw [if_pos hhash, take_length, forms, hhash]
      exact beq_self_eq_true _
    · omega
  | string | character => exact isBetween_take_quotedLength h
  | comparator =>
    obtain ⟨first, second, gap, hmem, hgap, -, htake⟩ := take_comparator h
    obtain ⟨hfirst, hne, hsecond⟩ := comparatorWords_letters _ hmem
    rw [htake]
    exact forms_comparator hfirst hne hsecond hgap
  | number =>
    rw [length] at h ⊢
    rcases hafter : afterNumber? t with _ | rest
    · rw [hafter] at h
      cases h
    · exact (numberLeaves_of_afterNumber? hafter).take
  | name =>
    rw [length] at h ⊢
    cases t with
    | nil => cases h
    | cons b t =>
      rw [head?_cons, Option.map_some, Option.getD_some] at h ⊢
      split at h
      · next hstart =>
        have hcontinue : continuesWord b := by rw [continuesWord, hstart]; rfl
        rw [if_pos hstart, ← prefix_iff_eq_take.mp (List.takeWhile_prefix _),
          takeWhile_cons_of_pos hcontinue, forms, Text.isWord, hstart]
        exact all_takeWhile
      · omega
  | operator =>
    rw [length] at h ⊢
    rcases hfind : Text.longSigns.find? (·.isPrefixOf t) with _ | sign
    · rw [hfind] at h
      cases h
    · have hprefix : sign.isPrefixOf t :=
        find?_some (p := fun sign : Text => sign.isPrefixOf t) hfind
      rw [hfind, Option.map_some, Option.getD_some,
        ← prefix_iff_eq_take.mp (List.isPrefixOf_iff_prefix.mp hprefix)]
      exact contains_iff_mem.mpr (mem_of_find?_eq_some hfind)
  | symbol =>
    rw [length] at h ⊢
    cases t with
    | nil => cases h
    | cons b t =>
      split at h
      · next hsign =>
        rw [if_pos hsign]
        simpa [forms] using hsign
      · omega

end WordRule

namespace Word

theorem IsCut.forms (h : w.IsCut) : w.rule.forms w.text := by
  obtain ⟨b, rest, n, hfirst, htext⟩ := h
  obtain ⟨rfl, hpos⟩ := first?_spec hfirst
  rw [htext]
  exact forms_take hpos

theorem IsCut.text_of_symbol (h : w.IsCut) (hrule : w.rule = .symbol) : ∃ b ∈ shortSigns, w.text = [b] := by
  have hforms := h.forms
  obtain ⟨b, rest, hw⟩ := h.text_eq_cons
  simp only [hrule, hw, WordRule.forms, length_cons, Bool.and_eq_true, beq_iff_eq, Nat.add_eq_right,
    length_eq_zero_iff, all_cons, contains_iff_mem] at hforms
  obtain ⟨rfl, hb, -⟩ := hforms
  exact ⟨b, hb, hw⟩

/-! ## How words start -/

def startsCode (b : UInt8) : Bool := !isGap b && b != '#'.toUInt8

/-- Code starts with no gap and no `#`. -/
theorem IsCut.starts (h : w.IsCut) (hgap : w.rule ≠ .gap) (hcomment : w.rule ≠ .comment) :
    ∃ b rest, w.text = b :: rest ∧ startsCode b := by
  obtain ⟨b, rest, htext, hopens⟩ := h.opens
  refine ⟨b, rest, htext, ?_⟩
  have hkind := kind_eq_kindOf hopens
  rw [startsCode, Bool.and_eq_true, Bool.not_eq_true', bne_iff_ne]
  constructor
  · rw [Bool.eq_false_iff]
    intro hb
    rw [kindOf, if_pos hb] at hkind
    exact hgap (eq_of_kind hkind (by decide) (by decide))
  · rintro rfl
    exact hcomment (eq_of_kind hkind (by decide) (by decide))

theorem respaced_eq_cons (rest : Text) (h : startsCode b) : ∃ rest', respaced (b :: rest) = b :: rest' := by
  have hindent : (!isIndent b) := by
    simp only [startsCode, isGap, Bool.not_or, Bool.and_eq_true] at h
    exact h.1.1
  rw [respaced, takeWhile_cons_of_pos (p := fun b => !isIndent b) hindent]
  exact ⟨_, rfl⟩

theorem mem_respaced (h : b ∈ respaced t) : b = ' '.toUInt8 ∨ b ∈ t := by
  have hspace : ofString " " = [' '.toUInt8] := by decide
  rw [respaced, hspace, mem_append, mem_append, mem_singleton] at h
  rcases h with (h | h) | h
  · exact .inr ((takeWhile_sublist _).subset h)
  · exact .inl h
  · exact .inr ((drop_sublist ..).subset ((dropWhile_sublist _).subset h))

/-- A word of code is one token. -/
theorem tokens_eq_singleton (hgap : w.rule ≠ .gap) (hcomment : w.rule ≠ .comment) (line level : Nat) :
    ∃ text, (text = w.text ∨ w.rule = .comparator ∧ text = respaced w.text) ∧
      w.tokens line level = [{ text := text, line := line, level := level }] := by
  rw [tokens]
  split
  · next hrule => exact absurd hrule hgap
  · next hrule => exact absurd hrule hcomment
  · next hrule => exact ⟨_, .inr ⟨hrule, rfl⟩, rfl⟩
  · exact ⟨_, .inl rfl, rfl⟩

theorem eq_of_mem_tokens (hcomment : w.rule ≠ .comment) {t : Token} (ht : t ∈ w.tokens line level) :
    w.rule ≠ .gap ∧ ∃ text, (text = w.text ∨ w.rule = .comparator ∧ text = respaced w.text) ∧
      t = { text := text, line := line, level := level } := by
  by_cases hgap : w.rule = .gap
  · rw [tokens_eq_nil hgap] at ht
    cases ht
  · obtain ⟨text, htext, htokens⟩ := tokens_eq_singleton hgap hcomment line level
    rw [htokens] at ht
    exact ⟨hgap, text, htext, mem_singleton.mp ht⟩

theorem text_of_comment (hcomment : w.rule = .comment) {t : Token} (ht : t ∈ w.tokens line level)
    (hraw : t.raw = false) : t.text = commentSign w.text := by
  rw [tokens, hcomment] at ht
  dsimp only at ht
  rcases mem_cons.mp ht with rfl | ht
  · rfl
  · split at ht
    · cases ht
    · rw [mem_singleton.mp ht] at hraw
      cases hraw

theorem IsCut.mem_tokens (h : w.IsCut) (hcomment : w.rule ≠ .comment) {t : Token} (ht : t ∈ w.tokens line level) :
    t.IsCode ∧ ∃ b rest, t.text = b :: rest ∧ startsCode b := by
  have hmarker := h.isMarker line level t ht
  obtain ⟨hgap, text, htext, rfl⟩ := eq_of_mem_tokens hcomment ht
  obtain ⟨b, rest, hw, hb⟩ := h.starts hgap hcomment
  have hstarts : ∃ b rest, text = b :: rest ∧ startsCode b := by
    rcases htext with rfl | ⟨-, rfl⟩
    · exact ⟨b, rest, hw, hb⟩
    · obtain ⟨rest', hrest'⟩ := respaced_eq_cons rest hb
      exact ⟨b, rest', by rw [hw, hrest'], hb⟩
  refine ⟨⟨rfl, hmarker, ?_⟩, hstarts⟩
  obtain ⟨b, rest, rfl, hb⟩ := hstarts
  -- Both signs of comments start with the byte that code cannot start with.
  rw [Bool.eq_false_iff]
  intro hsign
  have hhash : ∀ sign ∈ (["#", "#."] : List Text), (sign.head?.any startsCode) = false := by decide
  rw [Token.isCommentSign, Bool.or_eq_true, Token.is_iff, Token.is_iff] at hsign
  have hmem : b :: rest ∈ (["#", "#."] : List Text) := by
    rcases hsign with ⟨-, htext⟩ | ⟨-, htext⟩
    · exact mem_cons.mpr (.inl htext)
    · exact mem_cons_of_mem _ (mem_singleton.mpr htext)
  rw [show startsCode b = false from hhash _ hmem] at hb
  cases hb

/-! ## Brackets in words -/

theorem isBracket_of_isNumberPart : ∀ b, isNumberPart b → isBracket b = false := by
  decide +kernel

theorem isBracket_of_isIndent (h : isIndent b) : isBracket b = false := by
  rw [isIndent, Bool.or_eq_true, beq_iff_eq, beq_iff_eq] at h
  rcases h with rfl | rfl <;> decide

theorem isBracket_of_comparator (h : (isLetter b || isIndent b)) : isBracket b = false := by
  rw [Bool.or_eq_true] at h
  exact h.elim (fun h => isBracket_of_isNumberPart b (isNumberPart_of_isLetter h)) isBracket_of_isIndent

/-- A bracket is in a literal or is a token of its own. -/
theorem IsCut.category_of_bracket (h : w.IsCut) (hcomment : w.rule ≠ .comment) {t : Token}
    (ht : t ∈ w.tokens line level) (hb : b ∈ t.text) (hbracket : isBracket b) :
    t.category = .stringLiteral ∨ t.category = .characterLiteral ∨ t.category = .punctuation := by
  obtain ⟨hgap, text, htext, rfl⟩ := eq_of_mem_tokens hcomment ht
  have hforms := h.forms
  -- No byte of the four rules that are left in the end is a bracket.
  have hnone : ∀ {p : UInt8 → Bool}, (∀ b, p b → isBracket b = false) →
      w.text.all p → b ∉ w.text := by
    intro p hp hall hmem
    rw [hp b (all_eq_true.mp hall b hmem)] at hbracket
    cases hbracket
  rw [Token.category_eq rfl]
  rcases htext with rfl | ⟨hrule, rfl⟩
  · cases hrule : w.rule with
    | gap => exact absurd hrule hgap
    | comment => exact absurd hrule hcomment
    | string =>
      rw [hrule] at hforms
      exact .inl (ofText_of_fits (s := .stringLiteral) (by decide) hforms)
    | character =>
      rw [hrule] at hforms
      exact .inr (.inl (ofText_of_fits (s := .characterLiteral) (by decide) hforms))
    | comparator =>
      simp only [hrule, WordRule.forms, Bool.and_eq_true] at hforms
      exact absurd hb (hnone (fun b => isBracket_of_comparator) hforms.2)
    | number =>
      rw [hrule] at hforms
      exact absurd hb (hnone isBracket_of_isNumberPart hforms)
    | name =>
      have hword : ∀ b, continuesWord b → isBracket b = false :=
        fun b hb => isBracket_of_isNumberPart b (isNumberPart_of_continuesWord hb)
      rw [hrule] at hforms
      obtain ⟨c, rest, hw⟩ := h.text_eq_cons
      rw [hw] at hforms
      simp only [WordRule.forms, Text.isWord, Bool.and_eq_true] at hforms
      refine absurd hb (hnone hword ?_)
      rw [hw, all_cons, continuesWord_of_startsWord hforms.1, hforms.2]
      rfl
    | operator =>
      have hsigns : ∀ t ∈ longSigns, (t.all fun b => !isBracket b) = true :=
        all_eq_true.mp rfl
      rw [hrule, WordRule.forms, contains_iff_mem] at hforms
      have hno := all_eq_true.mp (hsigns _ hforms) b hb
      rw [hbracket] at hno
      cases hno
    | symbol =>
      have hsigns : ∀ b ∈ shortSigns,
          (!isBracket b || decide (ofText [b] = .punctuation)) :=
        all_eq_true.mp (by decide +kernel)
      obtain ⟨c, hc, hw⟩ := h.text_of_symbol hrule
      rw [hw] at hb ⊢
      obtain rfl := mem_singleton.mp hb
      have hcategory := hsigns b hc
      rw [hbracket, Bool.not_true, Bool.false_or, decide_eq_true_eq] at hcategory
      exact .inr (.inr hcategory)
  · simp only [hrule, WordRule.forms, Bool.and_eq_true] at hforms
    rcases mem_respaced hb with rfl | hb
    · cases hbracket
    · exact absurd hb (hnone (fun b => isBracket_of_comparator) hforms.2)

end Word

end Offside
