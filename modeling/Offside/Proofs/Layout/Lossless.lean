/-
Nothing of a line is lost, and nothing is added.

Gaps have no tokens, the two words of a comparison get one space, and a comment is trimmed. This is
all. The code goes on to the first `#` that is in no literal (`Text.code`), which is said without
the rules of cutting.
-/
import Offside.Proofs.Layout.Opener

set_option autoImplicit false

namespace Offside

open List Text Reading

namespace Text

variable {t u rest : Text} {quote : UInt8}

/-- The part of a line before its comment. Comes with the quote of the literal that is open, if one
is. -/
def codeIn : Option UInt8 → Text → Text
  | _, [] => []
  | none, b :: rest =>
    if b = '#'.toUInt8 then []
    else b :: codeIn (if b = '"'.toUInt8 ∨ b = '\''.toUInt8 then some b else none) rest
  | some _, [b] => [b]
  | some quote, b :: c :: rest =>
    if b = quote then b :: codeIn none (c :: rest)
    else if b = '\\'.toUInt8 then b :: c :: codeIn (some quote) rest
    else b :: codeIn (some quote) (c :: rest)

/-- The bytes of a line before the first `#` that is in no quoted literal. -/
def code (t : Text) : Text := codeIn none t

/-- The text without spaces, tabs and carriage returns. -/
def squeezed (t : Text) : Text := t.filter fun b => !isGap b

def isPlain (b : UInt8) : Bool := b != '#'.toUInt8 && b != '"'.toUInt8 && b != '\''.toUInt8

theorem squeezed_append (t u : Text) : squeezed (t ++ u) = squeezed t ++ squeezed u := filter_append ..

/-- In a literal the code goes on to the closing quote. -/
theorem codeIn_literal {n : Nat} (h : closingQuote? quote t = some n) :
    codeIn (some quote) t = t.take n ++ code (t.drop n) := by
  fun_induction closingQuote? quote t generalizing n with
  | case1 => cases h
  | case2 => cases h; rfl
  | case3 => cases h
  | case4 => cases h; simp [codeIn, code]
  | case5 c rest hb ih =>
    obtain ⟨m, hm, rfl⟩ := Option.map_eq_some_iff.mp h
    simp [codeIn, hb, ih hm]
  | case6 b c rest hb hescape ih =>
    obtain ⟨m, hm, rfl⟩ := Option.map_eq_some_iff.mp h
    simp [codeIn, hb, hescape, ih hm]

theorem code_append (h : u.all isPlain) (rest : Text) : code (u ++ rest) = u ++ code rest := by
  induction u with
  | nil => rfl
  | cons b u ih =>
    simp only [all_cons, isPlain, Bool.and_eq_true, bne_iff_ne] at h
    obtain ⟨⟨⟨hhash, hdouble⟩, hsingle⟩, hu⟩ := h
    rw [cons_append, code, codeIn, if_neg hhash, if_neg (by simp [hdouble, hsingle])]
    exact congrArg _ (ih (by simpa [isPlain] using hu))

theorem code_quoted (hquote : quote = '"'.toUInt8 ∨ quote = '\''.toUInt8) (h : 0 < quotedLength quote t) :
    code t = t.take (quotedLength quote t) ++ code (t.drop (quotedLength quote t)) := by
  rcases t with _ | ⟨b, t⟩
  · cases h
  rw [quotedLength] at h ⊢
  split at h
  · next hb =>
    subst hb
    have hhash : b ≠ '#'.toUInt8 := by rcases hquote with rfl | rfl <;> decide
    rcases hclose : closingQuote? b t with _ | n
    · rw [hclose] at h
      cases h
    · rw [if_pos rfl, code, codeIn, if_neg hhash, if_pos hquote, codeIn_literal hclose]
      rfl
  · cases h

end Text

namespace WordRule

theorem isPlain_of_forms {rule : WordRule} {u : Text} (h : rule.forms u) (hcomment : rule ≠ .comment)
    (hstring : rule ≠ .string) (hcharacter : rule ≠ .character) : u.all isPlain := by
  have hbytes : ∀ {p : UInt8 → Bool}, (∀ b, p b → isPlain b) → u.all p →
      u.all isPlain := fun hp hall => all_eq_true.mpr fun b hb => hp b (all_eq_true.mp hall b hb)
  cases rule with
  | gap | number => exact hbytes (by decide +kernel) h
  | comment => exact absurd rfl hcomment
  | string => exact absurd rfl hstring
  | character => exact absurd rfl hcharacter
  | comparator => exact hbytes (by decide +kernel) (Bool.and_eq_true_iff.mp h).2
  | symbol =>
    have hsigns : Text.shortSigns.all isPlain := by decide +kernel
    exact hbytes (fun b hb => all_eq_true.mp hsigns b (contains_iff_mem.mp hb)) (Bool.and_eq_true_iff.mp h).2
  | name =>
    rcases u with _ | ⟨b, u⟩
    · rfl
    obtain ⟨hb, hu⟩ := Bool.and_eq_true_iff.mp h
    refine hbytes (p := continuesWord) (by decide +kernel) ?_
    rw [all_cons, continuesWord_of_startsWord hb, hu]
    rfl
  | operator =>
    have hsigns : ∀ sign ∈ longSigns, sign.all isPlain := by decide
    exact hsigns u (contains_iff_mem.mp h)

/-- A word that is no comment is all code. -/
theorem code_of_first {rule : WordRule} {n : Nat} {t : Text} (h : first? t = some (rule, n))
    (hcomment : rule ≠ .comment) :
    t.code = t.take n ++ Text.code (t.drop n) := by
  obtain ⟨rfl, hpos⟩ := first?_spec h
  by_cases hstring : rule = .string
  · subst hstring
    exact code_quoted (.inl rfl) hpos
  by_cases hcharacter : rule = .character
  · subst hcharacter
    exact code_quoted (.inr rfl) hpos
  rw [← code_append (isPlain_of_forms (forms_take hpos) hcomment hstring hcharacter), take_append_drop]

end WordRule

namespace Word

variable {w : Word} {words : List Word} {content : Text} {number level : Nat}

/-- Spacing is all that a comparison loses. -/
theorem squeezed_respaced (t : Text) : (respaced t).squeezed = t.squeezed := by
  have hspace : squeezed " " = [] := by decide
  have hgaps : ∀ t : Text, squeezed (t.takeWhile isIndent) = [] := by
    intro t
    refine filter_eq_nil_iff.mpr fun b hb => ?_
    simp [isGap, all_eq_true.mp all_takeWhile b hb]
  have hrest : t.drop (t.takeWhile fun b => !isIndent b).length = t.dropWhile fun b => !isIndent b := by
    nth_rewrite 2 [← takeWhile_append_dropWhile (p := fun b => !isIndent b) (l := t)]
    exact drop_left
  generalize hgap : (t.dropWhile fun b => !isIndent b) = gap at hrest
  rw [respaced, hrest, squeezed_append, squeezed_append, hspace, append_nil]
  conv_rhs => rw [← takeWhile_append_dropWhile (p := fun b => !isIndent b) (l := t), hgap,
    ← takeWhile_append_dropWhile (p := isIndent) (l := gap), squeezed_append, squeezed_append, hgaps]
  rfl

/-- The tokens of a word of code spell it except for gaps. -/
theorem IsCut.squeezed_tokens (h : w.IsCut) (hcomment : w.rule ≠ .comment) (number level : Nat) :
    squeezed ((w.tokens number level).flatMap Token.text) = w.text.squeezed := by
  by_cases hgap : w.rule = .gap
  · rw [tokens_eq_nil hgap]
    refine (filter_eq_nil_iff.mpr fun b hb => ?_).symm
    rw [h.all_isGap hgap b hb]
    exact Bool.false_ne_true
  · obtain ⟨text, htext, htokens⟩ := tokens_eq_singleton hgap hcomment number level
    rw [htokens, flatMap_singleton]
    rcases htext with rfl | ⟨-, rfl⟩
    · rfl
    · exact squeezed_respaced w.text

/-- The tokens spell the code except for gaps, and the rest is one comment. -/
theorem cut_lossless (h : cut content = .ok words) (number level : Nat) :
    ∃ codes comment, words.flatMap (tokens number level) = codes ++ comment ∧ (∀ t ∈ codes, t.raw = false) ∧
      squeezed (codes.flatMap Token.text) = content.code.squeezed ∧
      ((content.code = content ∧ comment = []) ∨ ∃ text, content = content.code ++ text ∧
        text.head? = some '#'.toUInt8 ∧ comment = tokens number level ⟨.comment, text⟩) := by
  induction content, words, h using cut_induction with
  | nil => exact ⟨[], [], rfl, forall_mem_nil _, rfl, .inl ⟨rfl, rfl⟩⟩
  | cons b content rule n words h hfirst _ ih =>
    by_cases hcomment : rule = .comment
    · subst hcomment
      obtain rfl : words = [] := cut_comment_last h (nil_append _).symm rfl
      have htext : (b :: content).take n = b :: content := by simpa using cut_spells h
      obtain rfl : b = '#'.toUInt8 := by simpa [WordRule.opens] using WordRule.opens_of_first hfirst
      refine ⟨[], _, (nil_append _).symm, forall_mem_nil _, rfl, .inr ⟨'#'.toUInt8 :: content, rfl, rfl, ?_⟩⟩
      rw [flatMap_singleton, htext]
    · obtain ⟨codes, comment, htokens, hraw, hsqueezed, hcases⟩ := ih
      have hcut : (⟨rule, (b :: content).take n⟩ : Word).IsCut := ⟨b, content, n, hfirst, rfl⟩
      have hcode := WordRule.code_of_first hfirst hcomment
      refine ⟨Word.tokens number level ⟨rule, (b :: content).take n⟩ ++ codes, comment, ?_,
        forall_mem_append.mpr ⟨?_, hraw⟩, ?_, ?_⟩
      · rw [flatMap_cons, htokens, append_assoc]
      · exact fun t ht => (hcut.mem_tokens hcomment ht).1.raw
      · rw [flatMap_append, squeezed_append, hcut.squeezed_tokens hcomment, hsqueezed, hcode,
          squeezed_append]
      · rw [hcode]
        rcases hcases with ⟨hall, hnone⟩ | ⟨text, htext, hhash⟩
        · exact .inl ⟨by rw [hall, take_append_drop], hnone⟩
        · exact .inr ⟨text, by rw [append_assoc, ← htext, take_append_drop], hhash⟩

/-- A comment is its sign and, unless it is blank, its trimmed text. -/
theorem tokens_comment {t : Text} (h : t.head? = some '#'.toUInt8) (number level : Nat) :
    ∃ sign text, t = sign ++ text ∧ (sign = "#." ∨ sign = "#" ∧ text.head? ≠ some '.'.toUInt8) ∧
      tokens number level ⟨.comment, t⟩ = { text := sign, line := number, level := level } ::
        if trim text = [] then []
        else [{ text := trim text, line := number, level := level, raw := true }] := by
  obtain ⟨text, ht, hsign⟩ : ∃ text, t = commentSign t ++ text ∧
      (commentSign t = "#." ∨ commentSign t = "#" ∧ text.head? ≠ some '.'.toUInt8) := by
    obtain ⟨text, rfl⟩ := head?_eq_some_iff.mp h
    have hdocuments : ofString "#." = ['#'.toUInt8, '.'.toUInt8] := by decide
    have hremarks : ofString "#" = ['#'.toUInt8] := by decide
    rw [commentSign, after?, hdocuments, hremarks]
    rcases text with _ | ⟨c, text⟩
    · exact ⟨[], rfl, .inr ⟨rfl, by decide⟩⟩
    by_cases hc : c = '.'.toUInt8
    · subst hc
      exact ⟨text, by simp, .inl (by simp)⟩
    · exact ⟨c :: text, by simp [Ne.symm hc], .inr ⟨by simp [Ne.symm hc], by simpa using hc⟩⟩
  refine ⟨commentSign t, text, ht, hsign, ?_⟩
  have hdrop : t.drop (commentSign t).length = text := (congrArg (List.drop _) ht).trans drop_left
  simp only [tokens, hdrop, List.isEmpty_iff]

end Word

/-- The tokens of a line are those of its code and those of its comment. The texts of the former,
none of which is raw, are the code, except for gaps in both. The latter are the sign of the comment
and, unless it is blank, a raw token with its trimmed text; a line without comment has none. -/
theorem words_lossless {number margin : Nat} {content : Text} {words : List Word} {s s' : Reading}
    (h : Reading.wordsOf number margin content s = .ok words s') (level : Nat) :
    ∃ codes comment, (Row.words number level words).tokens = codes ++ comment ∧ (∀ t ∈ codes, t.raw = false) ∧
      Text.squeezed (codes.flatMap Token.text) = content.code.squeezed ∧
      ((content.code = content ∧ comment = []) ∨ ∃ sign text, content = content.code ++ (sign ++ text) ∧
        (sign = "#." ∨ sign = "#" ∧ text.head? ≠ some '.'.toUInt8) ∧
        comment = { text := sign, line := number, level := level } ::
          if Text.trim text = [] then []
          else [{ text := Text.trim text, line := number, level := level, raw := true }]) := by
  obtain ⟨codes, comment, htokens, hraw, hsqueezed, hcases⟩ :=
    Word.cut_lossless (Reading.wordsOf_ok h).1 number level
  refine ⟨codes, comment, htokens, hraw, hsqueezed, hcases.imp_right ?_⟩
  rintro ⟨text, hcontent, hhash, rfl⟩
  obtain ⟨sign, rest, rfl, hsign, hcomment⟩ := Word.tokens_comment hhash number level
  exact ⟨sign, rest, hcontent, hsign, hcomment⟩

/-- A `#` and an escaped quote in a literal, a comparison that is spread out, and a comment. -/
theorem words_lossless_quoted : ∃ (words : List Word) (codes comment : List Token) (sign text : Text),
    Reading.wordsOf 1 0 ("s = \"#\\\"\" less \t than t #.  why" : String) { unit := [] } =
      .ok words { unit := [] } ∧
    (Row.words 1 0 words).tokens = codes ++ ({ text := sign, line := 1 } :: comment) ∧
    Text.squeezed (codes.flatMap Token.text) = ("s=\"#\\\"\"lessthant" : String) ∧
    sign ++ text = ("#.  why" : String) := by
  generalize hcontent : (("s = \"#\\\"\" less \t than t #.  why" : String) : Text) = content
  have hcode : content.code = ("s = \"#\\\"\" less \t than t " : String) := by
    rw [← hcontent]
    decide +kernel
  have hcut : (Word.cut content).toOption.isSome = true := by
    rw [← hcontent]
    decide +kernel
  cases hwords : Word.cut content with
  | error rest => rw [hwords] at hcut; cases hcut
  | ok words =>
    have hwordsOf : Reading.wordsOf 1 0 content { unit := [] } = .ok words { unit := [] } := by
      rw [Reading.wordsOf, hwords]
      rfl
    obtain ⟨codes, comment, htokens, -, hsqueezed, hcases⟩ := words_lossless hwordsOf 0
    rw [hcode] at hsqueezed hcases
    rcases hcases with ⟨hall, -⟩ | ⟨sign, text, hsplit, -, rfl⟩
    · rw [← hcontent] at hall
      exact absurd hall (by decide)
    · refine ⟨words, codes, _, sign, text, hwordsOf, htokens, hsqueezed, ?_⟩
      have hrest : ("s = \"#\\\"\" less \t than t " : Text) ++ ("#.  why" : Text) = content := by
        rw [← hcontent]
        decide +kernel
      exact (append_cancel_left (hrest.trans hsplit)).symm

end Offside
