/-
A space behind a word.

A rule that takes the whole of a text takes as much of it before a space, and so no rule before it
applies. Only a name can turn into something else, the first half of a comparator.
-/
import Mathlib.Data.List.Find
import Offside.Proofs.Layout.Opener

set_option autoImplicit false

namespace Offside

open List Text

variable {t w more rest : Text} {b quote : UInt8} {rule : WordRule}

/-! ## Parts of words -/

namespace Text

def space : UInt8 := ' '.toUInt8

theorem dropWhile_space {p : UInt8 → Bool} (hp : p space = false) (t more : Text) :
    (t ++ space :: more).dropWhile p = t.dropWhile p ++ space :: more := by
  rw [dropWhile_append]
  split
  · next hempty => rw [List.isEmpty_iff.mp hempty, dropWhile_cons_of_neg (by rw [hp]; decide), nil_append]
  · rfl

theorem takeWhile_before {α : Type} {p : α → Bool} {a : α} (ha : p a = false) (l more : List α) :
    (l ++ a :: more).takeWhile p = l.takeWhile p := by
  induction l with
  | nil => exact takeWhile_cons_of_neg (by rw [ha]; decide)
  | cons b l ih => rw [cons_append, takeWhile_cons, takeWhile_cons, ih]

theorem takeWhile_eq_self {p : UInt8 → Bool} (h : t.all p) : t.takeWhile p = t :=
  takeWhile_eq_self_iff.mpr (all_eq_true.mp h)

theorem head?_space {p : UInt8 → Bool} (hp : p space = false) (t more : Text) :
    ((t ++ space :: more).head?.map p).getD false = (t.head?.map p).getD false := by
  cases t with
  | nil => exact hp
  | cons b t => rfl

theorem closingQuote?_append {n : Nat} (h : closingQuote? quote t = some n) (more : Text) :
    closingQuote? quote (t ++ more) = some n := by
  fun_induction closingQuote? quote t generalizing n with
  | case1 => cases h
  | case2 =>
    cases more with
    | nil | cons c more => simpa [closingQuote?] using h
  | case3 => cases h
  | case4 => simpa [closingQuote?] using h
  | case5 c rest hb ih =>
    obtain ⟨m, hm, rfl⟩ := Option.map_eq_some_iff.mp h
    simp [closingQuote?, hb, ih hm]
  | case6 b c rest hb hc ih =>
    obtain ⟨m, hm, rfl⟩ := Option.map_eq_some_iff.mp h
    have hrest := ih hm
    rw [cons_append] at hrest
    simp [closingQuote?, hb, hc, hrest]

theorem closingQuote?_le {n : Nat} (h : closingQuote? quote t = some n) : n ≤ t.length := by
  fun_induction closingQuote? quote t generalizing n with
  | case1 => cases h
  | case2 => cases h; exact Nat.le_refl _
  | case3 => cases h
  | case4 => cases h; exact Nat.le_add_left ..
  | case5 c rest _ ih =>
    obtain ⟨m, hm, rfl⟩ := Option.map_eq_some_iff.mp h
    exact Nat.succ_le_succ (Nat.succ_le_succ (ih hm))
  | case6 b c rest _ _ ih =>
    obtain ⟨m, hm, rfl⟩ := Option.map_eq_some_iff.mp h
    exact Nat.succ_le_succ (ih hm)

theorem quotedLength_le (t : Text) : quotedLength quote t ≤ t.length := by
  cases t with
  | nil => exact Nat.le_refl _
  | cons b t =>
    rw [quotedLength]
    split
    · cases hclose : closingQuote? quote t with
      | none => exact Nat.zero_le _
      | some n => exact Nat.succ_le_succ (closingQuote?_le hclose)
    · exact Nat.zero_le _

theorem quotedLength_append (h : 0 < quotedLength quote t) (more : Text) :
    quotedLength quote (t ++ more) = quotedLength quote t := by
  cases t with
  | nil => cases h
  | cons b t =>
    rw [quotedLength] at h
    rw [cons_append, quotedLength, quotedLength]
    split at h
    · next hb =>
      cases hclose : closingQuote? quote t with
      | none => rw [hclose] at h; cases h
      | some n => rw [closingQuote?_append hclose]
    · cases h

/-! ## Numbers -/

theorem skipFraction_space (t more : Text) : skipFraction (t ++ space :: more) = skipFraction t ++ space :: more := by
  rcases t with _ | ⟨b, _ | ⟨c, t⟩⟩
  · cases more <;> rfl
  · have hno : isDigit space = false := rfl
    rw [cons_append, nil_append, skipFraction, hno, Bool.and_false]
    rfl
  · rw [cons_append, cons_append, skipFraction, skipFraction]
    split
    · exact dropWhile_space rfl t more
    · rfl

theorem afterExponent?_space (t more : Text) :
    afterExponent? (t ++ space :: more) = (afterExponent? t).map (· ++ space :: more) := by
  have hdigits : ∀ digits : Text, (if ((digits ++ space :: more).head?.map isDigit).getD false = true then
      some ((digits ++ space :: more).dropWhile isDigit) else none) =
      (if (digits.head?.map isDigit).getD false = true then some (digits.dropWhile isDigit) else none).map
        (· ++ space :: more) := by
    intro digits
    rw [head?_space rfl, dropWhile_space rfl]
    split <;> rfl
  rcases t with _ | ⟨e, _ | ⟨sign, t⟩⟩
  · rfl
  · unfold afterExponent?
    dsimp only [cons_append, nil_append]
    split
    · exact hdigits []
    · rfl
  · unfold afterExponent?
    dsimp only [cons_append]
    split
    · split
      · exact hdigits t
      · exact hdigits (sign :: t)
    · rfl

theorem skipExponent_space (t more : Text) : skipExponent (t ++ space :: more) = skipExponent t ++ space :: more := by
  rw [skipExponent, skipExponent, afterExponent?_space]
  cases afterExponent? t <;> rfl

theorem skipSuffix_space (t more : Text) : skipSuffix (t ++ space :: more) = skipSuffix t ++ space :: more := by
  have hle : min 2 (t.takeWhile isLetter).length ≤ t.length :=
    (Nat.min_le_right _ _).trans (List.takeWhile_prefix _).length_le
  rw [skipSuffix, skipSuffix, takeWhile_before rfl, drop_append_of_le_length hle]

theorem afterPrefixed?_space {mark part : UInt8 → Bool} (hmark : mark space = false) (hpart : part space = false)
    (t more : Text) : afterPrefixed? mark part (t ++ space :: more) =
      (afterPrefixed? mark part t).map (· ++ space :: more) := by
  rcases t with _ | ⟨zero, _ | ⟨letter, t⟩⟩
  · cases more <;> rfl
  · rw [cons_append, nil_append, afterPrefixed?, hmark, Bool.and_false, Bool.false_and]
    rfl
  · rw [cons_append, cons_append, afterPrefixed?, afterPrefixed?, head?_space hpart, dropWhile_space hpart]
    split <;> rfl

/-- A number ends before a space. -/
theorem afterNumber?_space (t more : Text) :
    afterNumber? (t ++ space :: more) = (afterNumber? t).map (· ++ space :: more) := by
  unfold afterNumber?
  rw [afterPrefixed?_space rfl rfl, afterPrefixed?_space rfl rfl]
  cases afterPrefixed? isHexMark isHexPart t with
  | some rest => rfl
  | none =>
    cases afterPrefixed? isBinaryMark isBinaryPart t with
    | some rest => rfl
    | none =>
      cases t with
      | nil => rfl
      | cons d t =>
        simp only [Option.map_none, cons_append]
        rw [dropWhile_space rfl, skipFraction_space, skipExponent_space, skipSuffix_space]
        split <;> rfl

/-! ## Two words -/

theorem isPrefixOf_space {sign : Text} (h : space ∉ sign) (t more : Text) :
    sign.isPrefixOf (t ++ space :: more) = sign.isPrefixOf t := by
  induction sign generalizing t with
  | nil => simp
  | cons b sign ih =>
    rw [mem_cons, not_or] at h
    cases t with
    | nil =>
      have hne : (b == space) = false := beq_eq_false_iff_ne.mpr (Ne.symm h.1)
      simp [List.isPrefixOf, hne]
    | cons c t => rw [cons_append, List.isPrefixOf, List.isPrefixOf, ih h.2]

theorem twoWordLength_pair {first gap second tail : Text} (hgap : gap.all isIndent) (hne : gap ≠ [])
    (hsecond : (second.head?.map isIndent).getD true = false)
    (htail : (tail.head?.map continuesWord).getD false = false) :
    twoWordLength first second (first ++ (gap ++ second) ++ tail) = (first ++ (gap ++ second)).length := by
  have hafter : ∀ a b : Text, after? a (a ++ b) = some b := by
    intro a b
    rw [after?, if_pos (List.isPrefixOf_iff_prefix.mpr (prefix_append a b)), drop_left]
  have htake : (gap ++ (second ++ tail)).takeWhile isIndent = gap := by
    cases second with
    | nil => cases hsecond
    | cons c second =>
      have hc : isIndent c = false := hsecond
      rw [cons_append, takeWhile_before hc]
      exact takeWhile_eq_self hgap
  have hfilled : gap.isEmpty = false := isEmpty_eq_false_iff.mpr hne
  rw [append_assoc, append_assoc, twoWordLength, hafter]
  dsimp only
  rw [htake, drop_left, hafter]
  dsimp only
  rw [hfilled, htail, length_append, length_append, ← Nat.add_assoc]
  rfl

end Text

/-! ## Rules -/

namespace WordRule

theorem length_le (rule : WordRule) (t : Text) : rule.length t ≤ t.length := by
  cases rule with
  | gap => exact (List.takeWhile_prefix _).length_le
  | comment =>
    rw [length]
    split
    · exact Nat.le_refl _
    · exact Nat.zero_le _
  | string | character => exact quotedLength_le t
  | comparator =>
    rcases Nat.eq_zero_or_pos (comparator.length t) with hzero | hpos
    · rw [hzero]
      exact Nat.zero_le _
    · obtain ⟨first, second, gap, tail, -, -, -, -, ht, hlength⟩ := comparator_spec hpos
      rw [hlength, ht]
      exact (prefix_append _ tail).length_le
  | number =>
    rw [length]
    cases afterNumber? t with
    | none => exact Nat.zero_le _
    | some rest => exact Nat.sub_le _ _
  | name =>
    rw [length]
    split
    · exact (List.takeWhile_prefix _).length_le
    · exact Nat.zero_le _
  | operator =>
    rw [length]
    cases hfind : Text.longSigns.find? (·.isPrefixOf t) with
    | none => exact Nat.zero_le _
    | some sign =>
      have hprefix : sign.isPrefixOf t := find?_some (p := fun sign : Text => sign.isPrefixOf t) hfind
      exact (List.isPrefixOf_iff_prefix.mp hprefix).length_le
  | symbol =>
    cases t with
    | nil => exact Nat.zero_le _
    | cons b t =>
      rw [length]
      split
      · exact Nat.le_add_left ..
      · exact Nat.zero_le _

theorem eq_of_opens {earlier : WordRule} (hbefore : earlier ∈ all.takeWhile (· ≠ rule))
    (h : rule.opens b) (h' : earlier.opens b) :
    (earlier = comparator ∧ rule = name) ∨ (earlier = operator ∧ rule = symbol) := by
  have hall : ∀ rule ∈ all, ∀ earlier ∈ all.takeWhile (· ≠ rule), earlier.kind = rule.kind →
      (earlier = comparator ∧ rule = name) ∨ (earlier = operator ∧ rule = symbol) := by decide
  exact hall rule rule.mem_all earlier hbefore ((kind_eq_kindOf h').trans (kind_eq_kindOf h).symm)

theorem eq_number_of_opens (hb : isDigit b) (h : rule.opens b) : rule = number :=
  eq_of_kind ((kind_eq_kindOf h).trans ((kindOf_spec b).2 hb)) (by decide) (by decide)

/-- The rule that is applied is the first that takes anything. -/
theorem first?_eq_some_iff {n : Nat} : first? t = some (rule, n) ↔
    n = rule.length t ∧ 0 < n ∧ ∀ earlier ∈ all.takeWhile (· ≠ rule), earlier.length t = 0 := by
  have hall : all = all.takeWhile (· ≠ rule) ++ rule :: (all.dropWhile (· ≠ rule)).tail := by cases rule <;> rfl
  rw [first?, Option.map_eq_some_iff]
  constructor
  · rintro ⟨rule, hfind, ⟨⟩⟩
    obtain ⟨hpos, before, after, hsplit, hbefore⟩ := find?_eq_some_iff_append.mp hfind
    refine ⟨rfl, of_decide_eq_true hpos, fun earlier hmem => ?_⟩
    rw [hsplit, takeWhile_before (by simp)] at hmem
    simpa using hbefore earlier ((List.takeWhile_prefix _).subset hmem)
  · rintro ⟨rfl, hpos, hbefore⟩
    refine ⟨rule, find?_eq_some_iff_append.mpr ⟨decide_eq_true hpos, _, _, hall, fun earlier hmem => ?_⟩, rfl⟩
    simpa using hbefore earlier hmem

/-! ## Words behind which there is a space -/

theorem comparator_eq_twoWordLength {first second : Text} (hmem : (first, second) ∈ comparatorWords) (rest : Text) :
    comparator.length (first ++ rest) = twoWordLength first second (first ++ rest) := by
  have hless : ofString "less" = 'l'.toUInt8 :: ofString "ess" := by decide
  have hmore : ofString "more" = 'm'.toUInt8 :: ofString "ore" := by decide
  have hequal : ofString "equal" = 'e'.toUInt8 :: ofString "qual" := by decide
  -- The pairs start with different letters.
  rw [comparatorWords, mem_cons, mem_cons, mem_singleton, Prod.mk.injEq, Prod.mk.injEq,
    Prod.mk.injEq] at hmem
  rcases hmem with ⟨rfl, rfl⟩ | ⟨rfl, rfl⟩ | ⟨rfl, rfl⟩
  · rw [length, hless, hmore, hequal, cons_append, twoWordLength_eq_zero (f := 'm'.toUInt8) (by decide),
      twoWordLength_eq_zero (f := 'e'.toUInt8) (by decide), Nat.max_zero, Nat.max_zero]
  · rw [length, hless, hmore, hequal, cons_append, twoWordLength_eq_zero (f := 'l'.toUInt8) (by decide),
      twoWordLength_eq_zero (f := 'e'.toUInt8) (by decide), Nat.max_zero, Nat.zero_max]
  · rw [length, hless, hmore, hequal, cons_append, twoWordLength_eq_zero (f := 'l'.toUInt8) (by decide),
      twoWordLength_eq_zero (f := 'm'.toUInt8) (by decide), Nat.zero_max, Nat.zero_max]

/-- A name and the word behind it are a comparator only if they are one of the pairs. -/
theorem comparator_space (hw : w.all continuesWord) (ht : t.dropWhile isIndent = t)
    (hno : ∀ second tail, (w, second) ∈ comparatorWords → t = second ++ tail →
      (tail.head?.map continuesWord).getD false) : comparator.length (w ++ space :: t) = 0 := by
  by_contra hpos
  obtain ⟨first, second, gap, tail, hmem, hgap, hne, htail, hsplit, -⟩ := comparator_spec (Nat.pos_of_ne_zero hpos)
  have hwords : ∀ pair ∈ comparatorWords, pair.1.all continuesWord ∧
      (pair.2.head?.map isIndent).getD true = false := by decide
  obtain ⟨hfirst, hsecond⟩ := hwords _ hmem
  obtain ⟨g, gap, rfl⟩ := exists_cons_of_ne_nil hne
  have hword : ∀ b, isIndent b → continuesWord b = false := by decide +kernel
  rw [append_assoc, append_assoc] at hsplit
  have hfirst : w = first := by
    have htake := congrArg (List.takeWhile continuesWord) hsplit
    rw [all_cons, Bool.and_eq_true] at hgap
    rwa [takeWhile_before rfl, cons_append, takeWhile_before (hword g hgap.1),
      takeWhile_eq_self hw, takeWhile_eq_self hfirst]
      at htake
  subst hfirst
  have hrest := congrArg (List.dropWhile isIndent) (append_cancel_left hsplit)
  rw [dropWhile_cons_of_pos rfl, ht, dropWhile_append_of_pos (all_eq_true.mp hgap)] at hrest
  have hdrop : (second ++ tail).dropWhile isIndent = second ++ tail := by
    cases second with
    | nil => cases hsecond
    | cons c second =>
      have hc : isIndent c = false := hsecond
      exact dropWhile_cons_of_neg (by rw [hc]; decide)
  rw [hno second tail hmem (hrest.trans hdrop)] at htail
  cases htail

theorem operator_space (w more : Text) : operator.length (w ++ space :: more) = operator.length w := by
  have hspace : ∀ sign ∈ longSigns, space ∉ sign := by decide
  rw [length, length, find?_congr fun sign hsign => isPrefixOf_space (hspace sign hsign) w more]

/-- A rule that takes a whole word takes no more of it before a space. -/
theorem length_space (hgap : rule ≠ .gap) (hcomment : rule ≠ .comment) (hpos : 0 < rule.length w)
    (h : rule.length w = w.length) (more : Text) : rule.length (w ++ space :: more) = w.length := by
  cases rule with
  | gap => exact absurd rfl hgap
  | comment => exact absurd rfl hcomment
  | string | character => rw [← h, length, length, quotedLength_append hpos]
  | comparator =>
    have hsecond : ∀ pair ∈ comparatorWords, (pair.2.head?.map isIndent).getD true = false := by decide
    obtain ⟨first, second, gap, tail, hmem, hgap, hne, -, hsplit, hlength⟩ := comparator_spec hpos
    have htail : tail = [] := by
      have hle := congrArg List.length hsplit
      rw [length_append, ← hlength, h] at hle
      exact length_eq_zero_iff.mp (by omega)
    rw [htail, append_nil] at hsplit
    rw [hsplit, append_assoc, comparator_eq_twoWordLength hmem, ← append_assoc]
    exact twoWordLength_pair hgap hne (hsecond _ hmem) rfl
  | number =>
    rw [length] at h hpos ⊢
    rw [afterNumber?_space]
    cases hafter : afterNumber? w with
    | none => rw [hafter] at hpos; cases hpos
    | some rest =>
      rw [hafter, Option.map_some, Option.getD_some] at h hpos
      simp only [Option.map_some, Option.getD_some, length_append, length_cons]
      omega
  | name =>
    rw [length, head?_space rfl, takeWhile_before rfl]
    exact h
  | operator => rw [operator_space, h]
  | symbol =>
    rw [length, head?_space rfl]
    exact h

/-- It is still the first rule to apply. -/
theorem first?_space (hgap : rule ≠ .gap) (hcomment : rule ≠ .comment) (h : first? w = some (rule, w.length))
    (hname : rule = .name → comparator.length (w ++ space :: more) = 0) :
    first? (w ++ space :: more) = some (rule, w.length) := by
  rw [first?_eq_some_iff] at h ⊢
  obtain ⟨hlength, hpos, hbefore⟩ := h
  refine ⟨(length_space hgap hcomment (hlength ▸ hpos) hlength.symm more).symm, hpos, fun earlier hmem => ?_⟩
  by_contra hne
  obtain ⟨b, rest, rfl⟩ := exists_cons_of_ne_nil (ne_nil_of_length_pos hpos)
  have hopens : rule.opens b := opens_of_length (hlength ▸ hpos)
  rcases eq_of_opens hmem hopens (opens_of_length (Nat.pos_of_ne_zero hne)) with ⟨rfl, rfl⟩ | ⟨rfl, rfl⟩
  · exact hne (hname rfl)
  · rw [operator_space] at hne
    exact hne (hbefore _ hmem)

end WordRule

/-! ## Words on a line -/

/-- The text is one word, and its only token has the same text. -/
structure Text.IsWhole (rule : WordRule) (w : Text) : Prop where
  first : WordRule.first? w = some (rule, w.length)
  token : Word.tokens 1 0 ⟨rule, w⟩ = [{ text := w, line := 1 }]

namespace Text.IsWhole

theorem rule_ne_gap (h : IsWhole rule w) : rule ≠ .gap := by
  rintro rfl
  cases h.token

theorem length_eq (h : IsWhole rule w) : rule.length w = w.length :=
  (WordRule.first?_eq_some_iff.mp h.first).1.symm

theorem exists_cons (h : IsWhole rule w) : ∃ b rest, w = b :: rest ∧ rule.opens b ∧ isGap b = false := by
  obtain ⟨hlength, hpos, hbefore⟩ := WordRule.first?_eq_some_iff.mp h.first
  obtain ⟨b, rest, rfl⟩ := exists_cons_of_ne_nil (ne_nil_of_length_pos hpos)
  refine ⟨b, rest, rfl, WordRule.opens_of_length (hlength ▸ hpos), ?_⟩
  have hgap : WordRule.gap.length (b :: rest) = 0 := by
    refine hbefore _ ?_
    have hrule := h.rule_ne_gap
    cases rule with
    | gap => exact absurd rfl hrule
    | _ => decide
  rw [WordRule.length, length_eq_zero_iff] at hgap
  by_contra hb
  rw [takeWhile_cons_of_pos (by simpa using hb)] at hgap
  cases hgap

theorem all_continuesWord (h : IsWhole .name w) : w.all continuesWord := by
  have hlength := h.length_eq
  rw [WordRule.length] at hlength
  split at hlength
  · rw [← (List.takeWhile_prefix _).eq_of_length hlength]
    exact all_takeWhile
  · obtain ⟨b, rest, rfl, -⟩ := h.exists_cons
    cases hlength

end Text.IsWhole

theorem Text.join_singleton (w : Text) : join " " [w] = w := intercalate_singleton

theorem Text.join_cons_cons (w v : Text) (ws : List Text) :
    join " " (w :: v :: ws) = w ++ space :: join " " (v :: ws) := by
  have hspace : ofString " " = [space] := by decide
  rw [join, join, intercalate_cons_cons, hspace, append_assoc]
  rfl

theorem Text.takeWhile_join {p : UInt8 → Bool} (hp : p space = false) (w : Text) (ws : List Text) :
    (join " " (w :: ws)).takeWhile p = w.takeWhile p := by
  cases ws with
  | nil => rw [join_singleton]
  | cons v ws => rw [join_cons_cons, takeWhile_before hp]

theorem Text.head?_join {w : Text} (hw : w ≠ []) (ws : List Text) : (join " " (w :: ws)).head? = w.head? := by
  obtain ⟨b, w, rfl⟩ := exists_cons_of_ne_nil hw
  cases ws with
  | nil => rw [join_singleton]
  | cons v ws => rw [join_cons_cons]; rfl

namespace Word

theorem cut_of_first {n : Nat} {words : List Word} (h : WordRule.first? t = some (rule, n))
    (hrest : cut (t.drop n) = .ok words) : cut t = .ok (⟨rule, t.take n⟩ :: words) := by
  obtain ⟨-, hpos⟩ := WordRule.first?_spec h
  obtain ⟨n, rfl⟩ : ∃ m, n = m + 1 := ⟨n - 1, by omega⟩
  cases t with
  | nil =>
    have hnone : WordRule.first? [] = none := rfl
    rw [hnone] at h
    cases h
  | cons b t =>
    rw [cut, cutAfter, h]
    dsimp only
    rw [Nat.add_sub_cancel, cutAfter_eq_drop, ← drop_succ_cons (a := b), hrest]

theorem cut_space {words : List Word} (hgap : ∀ b ∈ t.head?, isGap b = false) (h : cut t = .ok words) :
    cut (space :: t) = .ok (⟨.gap, [space]⟩ :: words) := by
  have hlength : WordRule.gap.length (space :: t) = 1 := by
    rw [WordRule.length, takeWhile_cons_of_pos rfl]
    cases t with
    | nil => rfl
    | cons b t => rw [takeWhile_cons_of_neg (by rw [hgap b rfl]; decide)]; rfl
  refine cut_of_first (n := 1) ?_ h
  rw [WordRule.first?_eq_some_iff, hlength]
  exact ⟨rfl, Nat.one_pos, fun _ hmem => absurd hmem not_mem_nil⟩

theorem cut_whole (h : Text.IsWhole rule w) : cut w = .ok [⟨rule, w⟩] := by
  have hrest : cut (w.drop w.length) = .ok [] := by rw [drop_length]; rfl
  have hcut := cut_of_first h.first hrest
  rwa [take_length] at hcut

/-- Two words are a comparator only if they are a pair of the table. -/
theorem comparator_join {v : Text} {ws : List Text} (hw : Text.IsWhole .name w) (hv : Text.IsWhole rule v)
    (hpair : (w, v) ∉ WordRule.comparatorWords) :
    WordRule.comparator.length (w ++ space :: join " " (v :: ws)) = 0 := by
  obtain ⟨b, rest, rfl, hopens, hgap⟩ := hv.exists_cons
  have hhead : (join " " ((b :: rest) :: ws)).head? = some b := head?_join (cons_ne_nil _ _) ws
  refine WordRule.comparator_space hw.all_continuesWord ?_ fun second tail hmem hsplit => ?_
  · obtain ⟨more, hmore⟩ := head?_eq_some_iff.mp hhead
    rw [isGap, Bool.or_eq_false_iff] at hgap
    rw [hmore, dropWhile_cons_of_neg (by rw [hgap.1]; decide)]
  · by_contra hend
    have hsecond : ∀ pair ∈ WordRule.comparatorWords, pair.2.all continuesWord ∧
        pair.2.head? = some 't'.toUInt8 := by decide
    have hname : ∀ rule ∈ WordRule.all, rule.opens 't'.toUInt8 → rule = .name := by decide
    obtain ⟨hword, ht⟩ := hsecond _ hmem
    obtain ⟨second, rfl⟩ := head?_eq_some_iff.mp ht
    obtain rfl : b = 't'.toUInt8 := by
      rw [hsplit] at hhead
      exact (Option.some.inj hhead).symm
    obtain rfl := hname rule rule.mem_all hopens
    -- Both the word and the second half end where no word byte follows.
    have htake := takeWhile_join (p := continuesWord) rfl ('t'.toUInt8 :: rest) ws
    have hsecond : ('t'.toUInt8 :: second ++ tail).takeWhile continuesWord = 't'.toUInt8 :: second := by
      cases tail with
      | nil => rw [append_nil, takeWhile_eq_self hword]
      | cons c tail => rw [takeWhile_before (by simpa using hend), takeWhile_eq_self hword]
    rw [hsplit, takeWhile_eq_self hv.all_continuesWord, hsecond] at htake
    exact hpair (htake ▸ hmem)

/-- Words that are cut whole are the words of a line on which spaces separate them. -/
theorem cut_join {ws : List Text} (hne : ws ≠ []) (hwhole : ∀ w ∈ ws, ∃ rule, Text.IsWhole rule w)
    (hpairs : ws.IsChain fun w v => (w, v) ∉ WordRule.comparatorWords)
    (hsigns : ∀ w ∈ ws.dropLast, w ∉ (["#", "#."] : List Text)) : ∃ words, cut (join " " ws) = .ok words ∧
      words.flatMap (Word.tokens 1 0) = ws.map fun w => { text := w, line := 1 } := by
  induction ws with
  | nil => exact absurd rfl hne
  | cons w ws ih =>
    obtain ⟨⟨rule, hw⟩, hwhole⟩ := forall_mem_cons.mp hwhole
    cases ws with
    | nil =>
      rw [join_singleton]
      refine ⟨_, cut_whole hw, ?_⟩
      rw [flatMap_singleton, hw.token]
      rfl
    | cons v ws =>
      obtain ⟨hpair, hpairs⟩ := isChain_cons_cons.mp hpairs
      obtain ⟨words, hcut, htokens⟩ := ih (cons_ne_nil _ _) hwhole hpairs
        fun u hu => hsigns u (mem_cons_of_mem _ hu)
      obtain ⟨rule', hv⟩ := hwhole v mem_cons_self
      -- A comment goes on to the end of the line, so only the last word can be one.
      have hcomment : rule ≠ .comment := by
        rintro rfl
        have hsign : commentSign w = w := congrArg Token.text (cons.inj hw.token).1
        refine hsigns w mem_cons_self ?_
        rcases commentSign_cases w with hw | hw
        · exact mem_cons_of_mem _ (mem_singleton.mpr (hsign.symm.trans hw))
        · exact mem_cons.mpr (.inl (hsign.symm.trans hw))
      have hfirst : WordRule.first? (w ++ space :: join " " (v :: ws)) = some (rule, w.length) :=
        WordRule.first?_space hw.rule_ne_gap hcomment hw.first fun hname => comparator_join (hname ▸ hw) hv hpair
      have hhead : ∀ b ∈ (join " " (v :: ws)).head?, isGap b = false := by
        obtain ⟨c, rest, rfl, -, hgap⟩ := hv.exists_cons
        rw [head?_join (cons_ne_nil _ _)]
        rintro b ⟨⟩
        exact hgap
      rw [join_cons_cons]
      refine ⟨_, cut_of_first hfirst (by rw [drop_left]; exact cut_space hhead hcut), ?_⟩
      rw [take_left, flatMap_cons, flatMap_cons, hw.token, tokens_eq_nil rfl, htokens]
      rfl

end Word

end Offside
