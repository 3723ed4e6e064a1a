/-
Shapes exclude each other.

The first byte of a text, and for a capital what comes behind it, leave one shape that it can have.
So the order in which shapes are tried does not matter.
-/
import Mathlib.Data.FinEnum
import Offside.Proofs.Marker

set_option autoImplicit false

namespace Offside

open List Text Keyword

variable {t rest : Text} {b : UInt8} {s s' : Shape}

theorem Text.head_of_isBetween {quote : UInt8} (h : isBetween quote (b :: rest)) : b = quote := by
  simp only [isBetween, head?_cons, Bool.and_eq_true, beq_iff_eq, Option.some.injEq] at h
  exact h.1.2

theorem Text.startsWord_of_mem_signs (h : b ∈ signs) : startsWord b = false := by
  have hall : (signs.all fun b => !startsWord b) = true := rfl
  simpa using all_eq_true.mp hall b h

theorem Text.isLower_of_mem_signs (h : b ∈ signs) : isLower b = false := by
  have hword := startsWord_of_mem_signs h
  simp only [startsWord, isLetter, Bool.or_eq_false_iff] at hword
  exact hword.1.2

theorem Text.classes : ∀ b,
    (startsWord b → b ≠ '"'.toUInt8 ∧ b ≠ '\''.toUInt8 ∧ ¬ isDigit b) ∧
    (isDigit b → b ≠ '"'.toUInt8 ∧ b ≠ '\''.toUInt8) ∧
    ((isUpper b || isDigit b || b == '_'.toUInt8) → isLower b = false) := by decide +kernel

theorem Text.startsWord_spec (h : startsWord b) :
    b ≠ '"'.toUInt8 ∧ b ≠ '\''.toUInt8 ∧ ¬ isDigit b ∧ b ∉ signs := by
  obtain ⟨hstring, hcharacter, hdigit⟩ := (classes b).1 h
  refine ⟨hstring, hcharacter, hdigit, fun hsign => ?_⟩
  rw [startsWord_of_mem_signs hsign] at h
  cases h

theorem Text.afterPrefixed?_eq_some_iff {mark part : UInt8 → Bool} {tail : Text} :
    afterPrefixed? mark part t = some tail ↔ ∃ letter d ds, t = '0'.toUInt8 :: letter :: d :: ds ∧
      mark letter ∧ part d ∧ tail = ds.dropWhile part := by
  constructor
  · intro h
    rcases t with _ | ⟨zero, _ | ⟨letter, rest⟩⟩
    · cases h
    · cases h
    rw [afterPrefixed?] at h
    split at h
    · next hok =>
      simp only [Bool.and_eq_true, beq_iff_eq] at hok
      obtain ⟨⟨rfl, hletter⟩, hfirst⟩ := hok
      cases rest with
      | nil => cases hfirst
      | cons d ds =>
        have hd : part d := hfirst
        rw [dropWhile_cons_of_pos hd] at h
        exact ⟨letter, d, ds, rfl, hletter, hd, (Option.some.inj h).symm⟩
    · cases h
  · rintro ⟨letter, d, ds, rfl, hletter, hd, rfl⟩
    simp [afterPrefixed?, hletter, hd]

theorem Text.eq_zero_of_afterPrefixed? {mark part : UInt8 → Bool} {tail : Text}
    (h : afterPrefixed? mark part (b :: rest) = some tail) : b = '0'.toUInt8 := by
  obtain ⟨letter, d, ds, hcons, -⟩ := afterPrefixed?_eq_some_iff.mp h
  exact (cons.inj hcons).1

theorem Text.isDigit_of_isNumber (h : isNumber (b :: rest)) : isDigit b := by
  have hprefixed : ∀ {mark part : UInt8 → Bool},
      ((afterPrefixed? mark part (b :: rest)).map isNumberSuffix).getD false → isDigit b := by
    intro mark part hsome
    cases hafter : afterPrefixed? mark part (b :: rest) with
    | none => rw [hafter] at hsome; cases hsome
    | some tail => rw [eq_zero_of_afterPrefixed? hafter]; rfl
  rw [isNumber, Bool.or_eq_true, Bool.or_eq_true] at h
  rcases h with (h | h) | h
  · exact hprefixed h
  · exact hprefixed h
  · rw [isDecimalNumber, Bool.and_eq_true] at h
    exact h.1

theorem Text.exists_digit_of_isNumber (h : isNumber t) : ∃ d rest, t = d :: rest ∧ isDigit d := by
  cases t with
  | nil => cases h
  | cons d rest => exact ⟨d, rest, rfl, isDigit_of_isNumber h⟩

namespace Shape

theorem mem_all (s : Shape) : s ∈ all := by
  cases s <;> decide

def candidate (b : UInt8) (rest : Text) : Shape :=
  if b = '"'.toUInt8 then stringLiteral
  else if b = '\''.toUInt8 then characterLiteral
  else if isDigit b then numberLiteral
  else if isUpper b then
    if rest.isEmpty then templateType
    else if rest.any isLower then classIdentifier
    else constant
  else punctuation

/-- What comes behind a capital decides among three shapes. -/
theorem candidate_of_isUpper (h : isUpper b) : candidate b rest =
      if rest.isEmpty then templateType else if rest.any isLower then classIdentifier else constant := by
  obtain ⟨hstring, hcharacter, hdigit, -⟩ := startsWord_spec (b := b) (by simp [startsWord, isLetter, h])
  rw [candidate, if_neg hstring, if_neg hcharacter, if_neg hdigit, if_pos h]

theorem candidate_of_sign (h : b ∈ Text.signs) : candidate b rest = punctuation := by
  have hall : (Text.signs.all fun b => decide (b ≠ '"'.toUInt8 ∧ b ≠ '\''.toUInt8 ∧ ¬ isDigit b = true ∧
      ¬ isUpper b)) := rfl
  obtain ⟨hstring, hcharacter, hdigit, hupper⟩ := of_decide_eq_true (all_eq_true.mp hall b h)
  rw [candidate, if_neg hstring, if_neg hcharacter, if_neg hdigit, if_neg hupper]

theorem candidate_of_isLower (h : isLower b) : candidate b rest = punctuation := by
  have hupper : ¬ isUpper b := by
    intro hupper
    rw [(classes b).2.2 (by rw [hupper]; rfl)] at h
    cases h
  obtain ⟨hstring, hcharacter, hdigit, -⟩ := startsWord_spec (b := b) (by simp [startsWord, isLetter, h])
  rw [candidate, if_neg hstring, if_neg hcharacter, if_neg hdigit, if_neg hupper]

/-- A shape that fits is the candidate. -/
theorem eq_candidate (h : s.fits (b :: rest)) : s = candidate b rest := by
  cases s with
  | stringLiteral | characterLiteral =>
    obtain rfl := head_of_isBetween h
    rfl
  | numberLiteral =>
    have hdigit := isDigit_of_isNumber h
    obtain ⟨hstring, hcharacter⟩ := (classes b).2.1 hdigit
    rw [candidate, if_neg hstring, if_neg hcharacter, if_pos hdigit]
  | templateType =>
    simp only [fits, isTemplateType, length_cons, all_cons, Bool.and_eq_true, beq_iff_eq] at h
    obtain rfl := length_eq_zero_iff.mp (Nat.succ.inj h.1)
    rw [candidate_of_isUpper h.2.1]
    rfl
  | constant =>
    simp only [fits, isConstant, Bool.and_eq_true, Bool.not_eq_true'] at h
    have hlower : rest.any isLower = false := by
      rw [any_eq_false]
      intro c hc
      rw [(classes c).2.2 (all_eq_true.mp h.2 c hc)]
      decide
    rw [candidate_of_isUpper h.1.1, h.1.2, hlower]
    rfl
  | classIdentifier =>
    simp only [fits, isClassIdentifier, Bool.and_eq_true] at h
    have hne : rest.isEmpty = false := by
      cases rest with
      | nil => cases h.2
      | cons c rest => rfl
    rw [candidate_of_isUpper h.1.1, hne, h.2]
    rfl
  | punctuation =>
    simp only [fits, isPunctuation, all_cons, Bool.and_eq_true, contains_iff_mem] at h
    exact (candidate_of_sign h.2.1).symm

/-- No text has two shapes. -/
theorem eq_of_fits (h : s.fits t) (h' : s'.fits t) : s = s' := by
  cases t with
  | nil => cases s <;> cases h
  | cons b rest => rw [eq_candidate h, eq_candidate h']

/-- So any order finds the same one. -/
theorem find?_of_fits {order : List Shape} (hs : s ∈ order) (h : s.fits t) :
    order.find? (·.fits t) = some s := by
  cases hfind : order.find? (·.fits t) with
  | none => exact absurd h (find?_eq_none.mp hfind s hs)
  | some s' => rw [eq_of_fits h (find?_some (p := fun s : Shape => s.fits t) hfind)]

/-- A keyword with a shape is made of signs. -/
theorem eq_punctuation_of_keyword {k : Keyword} (hk : ofText? t = some k) (h : s.fits t) :
    s = punctuation := by
  obtain ⟨b, hb, hhead⟩ := head_of_mem_table _ (mem_table_of_ofText? hk)
  obtain ⟨rest, rfl⟩ := head?_eq_some_iff.mp hb
  rw [eq_candidate h]
  rcases hhead with ⟨hlower, -⟩ | ⟨hsign, -⟩
  · exact candidate_of_isLower hlower
  · exact candidate_of_sign hsign

end Shape

theorem Lexeme.ofText_of_fits (hs : s ≠ .punctuation) (h : s.fits t) : ofText t = shape s := by
  have hkeyword : ofText? t = none := by
    rw [Option.eq_none_iff_forall_ne_some]
    exact fun k hk => hs (Shape.eq_punctuation_of_keyword hk h)
  rw [ofText, hkeyword]
  dsimp only
  rw [Shape.find?_of_fits s.mem_all h]

theorem Category.ofText_of_fits (hs : s ≠ .punctuation) (h : s.fits t) : ofText t = s.category :=
  congrArg Lexeme.category (Lexeme.ofText_of_fits hs h)

def Lexeme.ofTextBy (order : List Shape) (t : Text) : Lexeme :=
  match ofText? t with
  | some k => keyword k
  | none =>
    match order.find? (·.fits t) with
    | some s => shape s
    | none => plain

/-- A text has at most one shape, and only signs are both a keyword and of some shape. So each order
of the shapes gives a text the same category. -/
theorem shapes_exclude_each_other (t : Text) : (∀ s s' : Shape, s.fits t = true → s'.fits t = true → s = s') ∧
      (∀ order : List Shape, order.Perm Shape.all →
        (Lexeme.ofTextBy order t).category = Category.ofText t) ∧
      ∀ k, Keyword.ofText? t = some k → ∀ s : Shape, s.fits t = true → s = .punctuation := by
  refine ⟨fun s s' => Shape.eq_of_fits, fun order horder => ?_, fun k hk s => Shape.eq_punctuation_of_keyword hk⟩
  have hfind : order.find? (·.fits t) = Shape.all.find? (·.fits t) := by
    cases hs : Shape.all.find? (·.fits t) with
    | none =>
      rw [find?_eq_none] at hs ⊢
      exact fun s _ => hs s s.mem_all
    | some s =>
      exact Shape.find?_of_fits (horder.mem_iff.mpr s.mem_all)
        (find?_some (p := fun s : Shape => s.fits t) hs)
  rw [Lexeme.ofTextBy, hfind]
  rfl

end Offside
