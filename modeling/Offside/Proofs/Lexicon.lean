/-
Which word is which lexeme.

Parsers decide by the lexeme of a token, while the words of a tree are texts. Most keywords have one
spelling, `Keyword.text?`, so a token with such a lexeme has no other text.
-/
import Offside.Proofs.Marker

set_option autoImplicit false

namespace Offside

open Keyword

variable {t w : Text} {k : Keyword}

namespace Lexeme

theorem ofText_of_mem_table (he : (t, k) ∈ table) : ofText t = .keyword k := by
  rw [ofText, ofText?_of_mem_table he]

theorem ofText_text (h : k.text? = some w) : ofText w = .keyword k :=
  ofText_of_mem_table (mem_table_of_text? h)

theorem ofText?_of_keyword (h : ofText t = .keyword k) : ofText? t = some k := by
  rw [ofText] at h
  split at h
  · next hk => cases h; exact hk
  · split at h <;> cases h

/-- A keyword with one spelling has that text. -/
theorem text_of_keyword (h : ofText t = .keyword k) (hw : k.text? = some w) : t = w :=
  text_of_mem_table _ (mem_table_of_ofText? (ofText?_of_keyword h)) _ hw

/-! ## Words and signs of expressions -/

theorem ofText_eq_comparator_iff {c : Comparator} : ofText t = .keyword (.comparator c) ↔ t = c.text := by
  constructor
  · intro h
    exact text_of_keyword h rfl
  · rintro rfl
    exact ofText_text rfl

theorem ofText_eq_logical_iff {w : Logical} : ofText t = .keyword (.logical w) ↔ t = w.text := by
  constructor
  · intro h
    exact text_of_keyword h rfl
  · rintro rfl
    exact ofText_text rfl

theorem ofText_eq_new_iff : ofText t = .keyword (.constructorWord .newWord) ↔ t = "new" := by
  constructor
  · intro h
    exact text_of_keyword h rfl
  · rintro rfl
    exact ofText_text rfl

def signs : List Text := ["(", ")", "[", "]", ",", ":", ".", "..", "!", "#", "#."]

/-- The signs of expressions are punctuation. -/
theorem ofText_sign (h : t ∈ signs) : ofText t = .shape .punctuation := by
  have hall : ∀ t ∈ signs, ofText t = .shape .punctuation := by decide +kernel
  exact hall t h

theorem ofText_minus : ofText "-" = .keyword .operator := by decide +kernel

theorem ofText_equals : ofText "=" = .keyword .assignment := by decide +kernel

theorem category_eq_punctuation_iff {l : Lexeme} : l.category = .punctuation ↔ l = .shape .punctuation := by
  constructor
  · intro h
    cases l with
    | plain => cases h
    | shape s => cases s <;> first | rfl | cases h
    | keyword k =>
      cases k with
      | marker m => cases m <;> cases h
      | _ => cases h
  · rintro rfl
    rfl

end Lexeme

end Offside
