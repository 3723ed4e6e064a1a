/-
No word of a line is read as a marker.

A word that starts with `<` was cut by one of the two rules for signs, and these take three bytes at
most, where the shortest marker has seven.
-/
import Offside.Layout.Word
import Offside.Proofs.Shape

set_option autoImplicit false

namespace Offside

open List Text Marker WordRule

/-! ## Texts that are no marker -/

namespace Marker

def angle : UInt8 := '<'.toUInt8

theorem head?_text (m : Marker) : m.text.head? = some angle := by
  cases m <;> rfl

theorem three_lt_length_text (m : Marker) : 3 < m.text.length := by
  cases m <;> decide

end Marker

namespace Token

theorem isMarker_of_text {t : Token} (h : t.text.head? ≠ some angle ∨ t.text.length ≤ 3) :
    t.isMarker = false := by
  rw [Bool.eq_false_iff]
  intro hm
  obtain ⟨m, his⟩ := isMarker_iff.mp hm
  rw [(is_iff.mp his).2] at h
  rcases h with h | h
  · exact h (head?_text m)
  · have := three_lt_length_text m
    omega

end Token

/-! ## What each rule takes -/

variable {t line : Text}

namespace WordRule

theorem twoWordLength_eq_zero {f b : UInt8} {first second rest : Text} (h : f ≠ b) :
    twoWordLength (f :: first) second (b :: rest) = 0 := by
  have hprefix : after? (f :: first) (b :: rest) = none := by
    rw [after?, if_neg]
    simp [List.isPrefixOf, h]
  rw [twoWordLength, hprefix]

variable {rule : WordRule} {b : UInt8} {rest : Text}

theorem mem_all (rule : WordRule) : rule ∈ all := by
  cases rule <;> decide

def comparatorWords : List (Text × Text) := [("less", "than"), ("more", "than"), ("equal", "to")]

def opens : WordRule → UInt8 → Bool
  | gap, b => isGap b
  | comment, b => b == '#'.toUInt8
  | string, b => b == '"'.toUInt8
  | character, b => b == '\''.toUInt8
  | comparator, b => comparatorWords.any fun pair => pair.1.head? == some b
  | number, b => isDigit b
  | name, b => startsWord b
  | operator, b => Text.longSigns.any fun sign => sign.head? == some b
  | symbol, b => Text.shortSigns.contains b

theorem length_eq_zero (h : rule.opens b = false) (rest : Text) : rule.length (b :: rest) = 0 := by
  cases rule with
  | gap =>
    have hgap : isGap b = false := h
    rw [length, takeWhile_cons_of_neg (by rw [hgap]; exact Bool.false_ne_true)]
    rfl
  | comment => rw [length, if_neg (by simpa [opens] using h)]
  | string | character => rw [length, quotedLength, if_neg (by simpa [opens] using h)]
  | comparator =>
    have hzero : ∀ pair ∈ comparatorWords, twoWordLength pair.1 pair.2 (b :: rest) = 0 := by
      intro pair hpair
      have hne : ∀ pair ∈ comparatorWords, pair.1 ≠ [] := by decide
      have hhead := any_eq_false.mp h pair hpair
      obtain ⟨f, first, hfirst⟩ := exists_cons_of_ne_nil (hne pair hpair)
      rw [hfirst] at hhead ⊢
      exact twoWordLength_eq_zero (by simpa using hhead)
    rw [comparatorWords, forall_mem_cons, forall_mem_cons, forall_mem_cons] at hzero
    rw [length, hzero.1, hzero.2.1, hzero.2.2.1]
    rfl
  | number =>
    have hdigit : isDigit b = false := h
    have hprefixed : ∀ mark part, afterPrefixed? mark part (b :: rest) = none := by
      intro mark part
      rw [Option.eq_none_iff_forall_ne_some]
      intro tail hsome
      rw [eq_zero_of_afterPrefixed? hsome] at hdigit
      cases hdigit
    have hnone : afterNumber? (b :: rest) = none := by
      rw [afterNumber?, hprefixed, hprefixed]
      dsimp only
      rw [hdigit]
      rfl
    rw [length, hnone]
    rfl
  | name =>
    have hword : startsWord b = false := h
    rw [length, head?_cons, Option.map_some, hword]
    rfl
  | operator =>
    have hnone : Text.longSigns.find? (·.isPrefixOf (b :: rest)) = none := by
      rw [find?_eq_none]
      intro sign hsign
      have hne : ∀ sign ∈ longSigns, sign ≠ [] := by decide
      have hhead := any_eq_false.mp h sign hsign
      obtain ⟨c, sign, rfl⟩ := exists_cons_of_ne_nil (hne sign hsign)
      have hc : (c == b) = false := by simpa using hhead
      rw [List.isPrefixOf, hc]
      exact Bool.false_ne_true
    rw [length, hnone]
    rfl
  | symbol =>
    have hsign : Text.shortSigns.contains b = false := h
    rw [length, head?_cons, Option.map_some, hsign]
    rfl

/-- A rule that takes something opens with the first byte. -/
theorem opens_of_length (h : 0 < rule.length (b :: rest)) : rule.opens b := by
  by_contra hno
  rw [length_eq_zero (Bool.eq_false_iff.mpr hno)] at h
  exact absurd h (Nat.lt_irrefl 0)

/-! ## Kinds of words -/

/-- Comparators open as names do, and long signs as short ones. -/
def kind : WordRule → WordRule
  | comparator => name
  | operator => symbol
  | rule => rule

theorem eq_of_kind {other : WordRule} (h : rule.kind = other) (hname : other ≠ name) (hsymbol : other ≠ symbol) :
    rule = other := by
  cases rule with
  | comparator => exact absurd h.symm hname
  | operator => exact absurd h.symm hsymbol
  | _ => exact h

def kindOf (b : UInt8) : WordRule :=
  if isGap b then gap
  else if b = '#'.toUInt8 then comment
  else if b = '"'.toUInt8 then string
  else if b = '\''.toUInt8 then character
  else if isDigit b then number
  else if startsWord b then name
  else symbol

theorem kindOf_symbol (hb : b ∈ shortSigns) : kindOf b = symbol := by
  have hall : (Text.shortSigns.all fun b => kindOf b = symbol) = true := rfl
  exact of_decide_eq_true (all_eq_true.mp hall b hb)

theorem of_head {α : Type} {l : List α} {f : α → Option UInt8} {p : UInt8 → Bool}
    (h : (l.any fun x => f x == some b) = true) (hall : (l.all fun x => (f x).all p) = true) : p b = true := by
  obtain ⟨x, hx, hhead⟩ := any_eq_true.mp h
  have hfirst := all_eq_true.mp hall x hx
  rwa [beq_iff_eq.mp hhead] at hfirst

theorem opens_symbol (h : operator.opens b) : symbol.opens b := of_head h rfl

theorem opens_name (h : comparator.opens b) : name.opens b := of_head h rfl

theorem kindOf_spec : ∀ b, (startsWord b → kindOf b = name) ∧ (isDigit b → kindOf b = number) := by
  decide +kernel

/-- The first byte decides the kind of a word. -/
theorem kind_eq_kindOf (h : rule.opens b) : rule.kind = kindOf b := by
  cases rule with
  | gap => exact (if_pos h).symm
  | comment | string | character =>
    obtain rfl := beq_iff_eq.mp h
    rfl
  | comparator => exact ((kindOf_spec b).1 (opens_name h)).symm
  | number => exact ((kindOf_spec b).2 h).symm
  | name => exact ((kindOf_spec b).1 h).symm
  | operator => exact (kindOf_symbol (contains_iff_mem.mp (opens_symbol h))).symm
  | symbol => exact (kindOf_symbol (contains_iff_mem.mp h)).symm

/-! ## The first rule -/

/-- Signs have three bytes at most. -/
theorem length_sign_le (t : Text) (h : rule = .operator ∨ rule = .symbol) : rule.length t ≤ 3 := by
  rcases h with rfl | rfl
  · rw [length]
    rcases hfind : Text.longSigns.find? (·.isPrefixOf t) with _ | sign
    · rw [hfind]
      exact Nat.zero_le 3
    · rw [hfind]
      have hall : ∀ sign ∈ longSigns, sign.length ≤ 3 := by decide
      exact hall sign (mem_of_find?_eq_some hfind)
  · rw [length]
    split
    · decide
    · decide

theorem first?_spec {n : Nat} (h : first? t = some (rule, n)) : n = rule.length t ∧ 0 < n := by
  rw [first?, Option.map_eq_some_iff] at h
  obtain ⟨rule', hfind, hpair⟩ := h
  obtain ⟨rfl, rfl⟩ := Prod.mk.inj hpair
  have hpos : decide (0 < rule'.length t) :=
    find?_some (p := fun rule : WordRule => decide (0 < rule.length t)) hfind
  exact ⟨rfl, of_decide_eq_true hpos⟩

theorem opens_of_first {n : Nat} (h : first? (b :: rest) = some (rule, n)) : rule.opens b := by
  obtain ⟨rfl, hpos⟩ := first?_spec h
  exact opens_of_length hpos

end WordRule

/-! ## The words of a line -/

variable {w : Word} {words : List Word}

namespace Word

def IsCut (w : Word) : Prop :=
  ∃ b rest n, first? (b :: rest) = some (w.rule, n) ∧ w.text = (b :: rest).take n

theorem IsCut.opens (h : w.IsCut) : ∃ b rest, w.text = b :: rest ∧ w.rule.opens b := by
  obtain ⟨b, rest, n, hfirst, htext⟩ := h
  obtain ⟨m, rfl⟩ : ∃ m, n = m + 1 := ⟨n - 1, by have := (WordRule.first?_spec hfirst).2; omega⟩
  exact ⟨b, rest.take m, htext, opens_of_first hfirst⟩

theorem IsCut.text_eq_cons (h : w.IsCut) : ∃ b rest, w.text = b :: rest := by
  obtain ⟨b, rest, htext, -⟩ := h.opens
  exact ⟨b, rest, htext⟩

theorem cutAfter_eq_drop (skip : Nat) (t : Text) : cutAfter skip t = cut (t.drop skip) := by
  induction t generalizing skip with
  | nil =>
    rw [drop_nil]
    cases skip <;> rfl
  | cons b t ih =>
    cases skip with
    | zero => rfl
    | succ skip => exact ih skip

theorem cut_cons {b : UInt8} {t : Text} (h : cut (b :: t) = .ok words) :
    ∃ rule n rest, first? (b :: t) = some (rule, n) ∧ cut ((b :: t).drop n) = .ok rest ∧
      words = ⟨rule, (b :: t).take n⟩ :: rest := by
  rw [cut, cutAfter] at h
  rcases hfirst : first? (b :: t) with _ | ⟨rule, n⟩
  · rw [hfirst] at h
    cases h
  rw [hfirst] at h
  dsimp only at h
  rcases hcut : cutAfter (n - 1) t with tail | rest
  · rw [hcut] at h
    cases h
  · rw [hcut] at h
    cases h
    obtain ⟨m, rfl⟩ : ∃ m, n = m + 1 := ⟨n - 1, by have := (WordRule.first?_spec hfirst).2; omega⟩
    rw [Nat.add_sub_cancel, cutAfter_eq_drop] at hcut
    exact ⟨rule, m + 1, rest, rfl, hcut, rfl⟩

/-- Induction along the words that a line was cut into. -/
@[elab_as_elim]
theorem cut_induction {motive : ∀ line words, cut line = .ok words → Prop} (nil : ∀ h, motive [] [] h)
    (cons : ∀ b t rule n words h (_ : first? (b :: t) = some (rule, n)) hrest,
      motive ((b :: t).drop n) words hrest → motive (b :: t) (⟨rule, (b :: t).take n⟩ :: words) h)
    (line : Text) (words : List Word) (h : cut line = .ok words) : motive line words h := by
  induction words generalizing line with
  | nil =>
    rcases line with _ | ⟨b, t⟩
    · exact nil h
    · obtain ⟨_, _, _, -, -, hwords⟩ := cut_cons h
      cases hwords
  | cons w words ih =>
    rcases line with _ | ⟨b, t⟩
    · cases h
    · obtain ⟨rule, n, _, hfirst, hrest, hwords⟩ := cut_cons h
      obtain ⟨rfl, rfl⟩ := List.cons.inj hwords
      exact cons b t rule n words h hfirst hrest (ih _ hrest)

/-- The words of a line spell it, and each was cut by a rule. -/
theorem cut_spec (h : cut line = .ok words) : (words.map Word.text).flatten = line ∧ ∀ w ∈ words, w.IsCut := by
  induction line, words, h using cut_induction with
  | nil => exact ⟨rfl, forall_mem_nil _⟩
  | cons b t rule n words _ hfirst _ ih =>
    refine ⟨?_, forall_mem_cons.mpr ⟨⟨b, t, n, hfirst, rfl⟩, ih.2⟩⟩
    rw [map_cons, flatten_cons, ih.1, take_append_drop]

theorem cut_spells (h : cut line = .ok words) : (words.map Word.text).flatten = line := (cut_spec h).1

theorem head?_respaced (h : t.head? ≠ some angle) : (respaced t).head? ≠ some angle := by
  have hspace : ofString " " = [' '.toUInt8] := by decide
  rw [respaced, hspace]
  rcases t with _ | ⟨b, t⟩
  · decide
  · by_cases hb : isIndent b
    · rw [takeWhile_cons_of_neg (by rw [hb]; exact Bool.false_ne_true)]
      rw [nil_append, cons_append, head?_cons, Ne, Option.some.injEq]
      decide
    · rw [takeWhile_cons_of_pos (by rw [Bool.not_eq_true] at hb; rw [hb]; rfl)]
      exact h

theorem IsCut.text (h : w.IsCut) : w.text.head? ≠ some angle ∨
      ((w.rule = .operator ∨ w.rule = .symbol) ∧ w.text.length ≤ 3) := by
  have hall : ∀ rule ∈ WordRule.all, rule.opens angle → rule = .operator ∨ rule = .symbol := by decide
  obtain ⟨b, rest, htext, hopens⟩ := h.opens
  by_cases hsign : w.rule = .operator ∨ w.rule = .symbol
  · obtain ⟨b, rest, n, hfirst, htext⟩ := h
    obtain ⟨rfl, -⟩ := WordRule.first?_spec hfirst
    rw [htext, length_take]
    exact .inr ⟨hsign, (Nat.min_le_left _ _).trans (length_sign_le (b :: rest) hsign)⟩
  · rw [htext]
    refine .inl fun hb => hsign (hall _ w.rule.mem_all ?_)
    rw [← Option.some.inj hb]
    exact hopens

theorem commentSign_cases (t : Text) : commentSign t = "#." ∨ commentSign t = "#" := by
  rw [commentSign]
  split
  · exact .inl rfl
  · exact .inr rfl

/-- No token of a word is a marker. -/
theorem IsCut.isMarker (h : w.IsCut) (line level : Nat) : ∀ t ∈ w.tokens line level, t.isMarker = false := by
  have hplain : ∀ u : Token, u.text = w.text → u.isMarker = false := by
    intro u hu
    refine Token.isMarker_of_text ?_
    rw [hu]
    exact h.text.imp id And.right
  intro t ht
  rw [Word.tokens] at ht
  split at ht
  · cases ht
  · dsimp only at ht
    rcases mem_cons.mp ht with rfl | ht
    · refine Token.isMarker_of_text (.inr ?_)
      have hlength : (commentSign w.text).length ≤ 3 := by
        rcases commentSign_cases w.text with hsign | hsign <;> rw [hsign] <;> decide
      exact hlength
    · split at ht
      · cases ht
      · rw [mem_singleton.mp ht]
        exact Token.isMarker_of_raw rfl
  · next hrule =>
    rw [mem_singleton.mp ht]
    refine Token.isMarker_of_text (.inl (head?_respaced ?_))
    rcases h.text with hhead | ⟨hsign, -⟩
    · exact hhead
    · rw [hrule] at hsign
      rcases hsign with hsign | hsign <;> cases hsign
  · rw [mem_singleton.mp ht]
    exact hplain _ rfl

theorem tokens_eq_cons (h : w.rule ≠ .gap) (line level : Nat) :
    ∃ t ts, w.tokens line level = t :: ts ∧ t.raw = false := by
  rw [Word.tokens]
  split
  · next hrule => exact absurd hrule h
  · exact ⟨_, _, rfl, rfl⟩
  · exact ⟨_, _, rfl, rfl⟩
  · exact ⟨_, _, rfl, rfl⟩

theorem tokens_eq_nil (h : w.rule = .gap) (line level : Nat) : w.tokens line level = [] := by
  rw [Word.tokens, h]

theorem IsCut.all_isGap (h : w.IsCut) (hrule : w.rule = .gap) : ∀ b ∈ w.text, isGap b := by
  obtain ⟨b, rest, n, hfirst, htext⟩ := h
  obtain ⟨hn, -⟩ := WordRule.first?_spec hfirst
  rw [hrule, WordRule.length] at hn
  rw [htext, hn, ← prefix_iff_eq_take.mp (List.takeWhile_prefix isGap)]
  exact all_eq_true.mp all_takeWhile

/-- The tokens of a line in which some byte is no gap start with one that is not raw. -/
theorem flatMap_tokens_eq_cons {content : Text} (h : cut content = .ok words)
    (hgap : ∃ b ∈ content, isGap b = false) (line level : Nat) :
    ∃ t ts, words.flatMap (Word.tokens line level) = t :: ts ∧ t.raw = false := by
  have hcuts := (cut_spec h).2
  have hexists : ∃ w ∈ words, w.rule ≠ .gap := by
    obtain ⟨b, hb, hno⟩ := hgap
    rw [← cut_spells h, mem_flatten] at hb
    obtain ⟨text, htext, hb⟩ := hb
    obtain ⟨w, hw, rfl⟩ := mem_map.mp htext
    refine ⟨w, hw, fun hrule => ?_⟩
    rw [(hcuts w hw).all_isGap hrule b hb] at hno
    cases hno
  clear h hgap hcuts
  induction words with
  | nil =>
    obtain ⟨w, hw, -⟩ := hexists
    cases hw
  | cons w words ih =>
    rw [flatMap_cons]
    by_cases hrule : w.rule = .gap
    · rw [tokens_eq_nil hrule, nil_append]
      refine ih ?_
      obtain ⟨v, hv, hno⟩ := hexists
      rcases mem_cons.mp hv with rfl | hv
      · exact absurd hrule hno
      · exact ⟨v, hv, hno⟩
    · obtain ⟨t, ts, htokens, hraw⟩ := tokens_eq_cons hrule line level
      exact ⟨t, ts ++ words.flatMap (Word.tokens line level), by rw [htokens]; rfl, hraw⟩

end Word

end Offside
