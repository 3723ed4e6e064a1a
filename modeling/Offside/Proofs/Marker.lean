/-
Which tokens are line markers.

Parsers test the text, the category or the lexeme of a token, and never ask whether it is a marker.
A token that passes one of these tests is none.
-/
import Offside.Proofs.Keyword
import Offside.Token.Stream

set_option autoImplicit false

namespace Offside

open List Keyword

/-! ## Tests that no marker passes -/

variable {t : Token} {m : Marker}

variable {text : Text} {a b : Marker}

namespace Token

theorem is_iff : t.is text ↔ t.raw = false ∧ t.text = text := by
  simp [Token.is]

theorem is_congr {u : Token} (htext : u.text = t.text) (hraw : u.raw = t.raw) (text : Text) :
    u.is text = t.is text := by
  rw [Token.is, Token.is, htext, hraw]

/-- The markers are the texts of the table that are not raw. -/
theorem isMarker_iff : t.isMarker ↔ ∃ m : Marker, t.is m.text := by
  rw [isMarker, any_eq_true]
  constructor
  · rintro ⟨m, -, hm⟩
    exact ⟨m, hm⟩
  · rintro ⟨m, hm⟩
    exact ⟨m, by cases m <;> decide, hm⟩

theorem marker_unique (ha : t.is a.text) (hb : t.is b.text) : a = b := by
  have htext := (is_iff.mp ha).2.symm.trans (is_iff.mp hb).2
  revert htext
  cases a <;> cases b <;> decide

theorem is_eq_false_of_is (ha : t.is a.text) (hne : b ≠ a) : t.is b.text = false := by
  rw [Bool.eq_false_iff]
  exact fun hb => hne (marker_unique hb ha)

theorem lexeme_of_is_marker (h : t.is m.text) : t.lexeme = .keyword (.marker m) := by
  obtain ⟨hraw, htext⟩ := is_iff.mp h
  have hentry : (m.text, .marker m) ∈ table := mem_table_of_text? rfl
  rw [lexeme, hraw, htext, Lexeme.ofText, ofText?_of_mem_table hentry]
  rfl

theorem is_of_lexeme_marker (h : t.lexeme = .keyword (.marker m)) : t.is m.text := by
  rw [lexeme] at h
  split at h
  · cases h
  · next hraw =>
    rw [Lexeme.ofText] at h
    split at h
    · next k hk =>
      cases h
      exact is_iff.mpr ⟨by simpa using hraw, text_of_mem_table _ (mem_table_of_ofText? hk) _ rfl⟩
    · split at h <;> cases h

theorem isMarker_iff_lexeme : t.isMarker ↔ ∃ m, t.lexeme = .keyword (.marker m) := by
  rw [isMarker_iff]
  exact ⟨fun ⟨m, hm⟩ => ⟨m, lexeme_of_is_marker hm⟩, fun ⟨m, hm⟩ => ⟨m, is_of_lexeme_marker hm⟩⟩

theorem isMarker_of_lexeme_ne (h : ∀ m : Marker, t.lexeme ≠ .keyword (.marker m)) : t.isMarker = false := by
  rw [Bool.eq_false_iff]
  intro hm
  obtain ⟨m, hm⟩ := isMarker_iff_lexeme.mp hm
  exact h m hm

theorem isMarker_of_mark (h : t.is m.text) : t.isMarker := isMarker_iff.mpr ⟨m, h⟩

theorem is_eq_false_of_isMarker (h : t.isMarker = false) (m : Marker) : t.is m.text = false := by
  rw [Bool.eq_false_iff]
  intro his
  rw [isMarker_of_mark his] at h
  cases h

/-- The categories of markers are those called so. -/
theorem category_isLineMarker (t : Token) : t.category.isLineMarker = t.isMarker := by
  cases hm : t.isMarker with
  | true =>
    obtain ⟨m, hlex⟩ := isMarker_iff_lexeme.mp hm
    rw [category, hlex]
    cases m <;> rfl
  | false =>
    have hno : ∀ m, t.lexeme ≠ .keyword (.marker m) := by
      intro m hlex
      rw [isMarker_iff_lexeme.mpr ⟨m, hlex⟩] at hm
      cases hm
    rw [category]
    cases hlex : t.lexeme with
    | keyword k =>
      cases k with
      | marker m => exact absurd hlex (hno m)
      | _ => rfl
    | shape s => cases s <;> rfl
    | plain => rfl

theorem isMarker_of_category {c : Category} (h : t.category = c) : t.isMarker = c.isLineMarker := by
  rw [← category_isLineMarker, h]

theorem isMarker_of_lexeme {l : Lexeme} (h : t.lexeme = l) : t.isMarker = l.category.isLineMarker := by
  rw [← category_isLineMarker, category, h]

/-- A token with a text is a marker if the text is. -/
theorem isMarker_of_is (h : t.is text) : t.isMarker = Marker.all.any fun m => text == m.text := by
  obtain ⟨hraw, htext⟩ := is_iff.mp h
  simp [isMarker, Token.is, hraw, htext]

theorem isMarker_of_raw (h : t.raw) : t.isMarker = false := by
  simp [isMarker, Token.is, h]

theorem isMarker_of_isWord (h : t.isWord) : t.isMarker = false := by
  rw [Bool.eq_false_iff]
  intro hm
  obtain ⟨m, his⟩ := isMarker_iff.mp hm
  rw [isWord, (is_iff.mp his).2, Bool.and_eq_true] at h
  have hno : m.text.isWord = false := by cases m <;> rfl
  rw [hno] at h
  exact Bool.false_ne_true h.2

theorem isMarker_of_isTypeName (h : t.category.isTypeName) : t.isMarker = false := by
  rw [← category_isLineMarker]
  revert h
  cases t.category <;> simp [Category.isTypeName, Category.isLineMarker]

theorem isMarker_of_isCommentSign (h : t.isCommentSign) : t.isMarker = false := by
  rw [isCommentSign, Bool.or_eq_true] at h
  rcases h with h | h <;> rw [isMarker_of_is h] <;> rfl

theorem isMarker_of_label (h : ¬ (!(t.is "case" || t.is "default"))) : t.isMarker = false := by
  rw [Bool.not_eq_true, Bool.not_eq_false', Bool.or_eq_true] at h
  rcases h with h | h <;> rw [isMarker_of_is h] <;> rfl

/-! ## The balance of a token list -/

def balance (ts : List Token) : Int :=
  (ts.countP fun t => t.is Marker.indent.text : Nat) -
    (ts.countP fun t => t.is Marker.dedent.text : Nat)

/-- Balances add up. -/
@[simp] theorem balance_append (ts us : List Token) : balance (ts ++ us) = balance ts + balance us := by
  simp only [balance, countP_append]
  omega

@[simp] theorem balance_reverse (ts : List Token) : balance ts.reverse = balance ts := by
  simp only [balance, countP_reverse]

theorem balance_cons (t : Token) (ts : List Token) :
    balance (t :: ts) = balance [t] + balance ts := balance_append [t] ts

theorem balance_indent (h : t.is Marker.indent.text) : balance [t] = 1 := by
  have hd : t.is Marker.dedent.text = false := is_eq_false_of_is h (by decide)
  simp [balance, h, hd]

theorem balance_dedent (h : t.is Marker.dedent.text) : balance [t] = -1 := by
  have hi : t.is Marker.indent.text = false := is_eq_false_of_is h (by decide)
  simp [balance, h, hi]

theorem balance_other (hi : t.is Marker.indent.text = false) (hd : t.is Marker.dedent.text = false) :
    balance [t] = 0 := by
  simp [balance, hi, hd]

theorem balance_newline (h : t.is Marker.newline.text) : balance [t] = 0 :=
  balance_other (is_eq_false_of_is h (by decide)) (is_eq_false_of_is h (by decide))

theorem balance_plain {ts : List Token} (h : ∀ t ∈ ts, t.isMarker = false) : balance ts = 0 := by
  induction ts with
  | nil => rfl
  | cons t ts ih =>
    have hno := is_eq_false_of_isMarker (h t mem_cons_self)
    rw [balance_cons, balance_other (hno .indent) (hno .dedent), ih fun u hu => h u (mem_cons_of_mem _ hu)]
    rfl

end Token

end Offside
