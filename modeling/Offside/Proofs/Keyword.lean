/-
The table of keywords.

A text is a keyword if it has an entry in the table, and no text has two. Most keywords also have
one spelling, `Keyword.text?`. The first byte of an entry tells signs and line markers from words.
-/
import Mathlib.Data.List.Basic
import Offside.Syntax.Declaration

set_option autoImplicit false

open List

namespace Offside

def Conditional.text : Conditional → Text
  | ifWord => "if"
  | elseWord => "else"
  | switchWord => "switch"
  | caseWord => "case"
  | defaultWord => "default"

def ConstructorWord.text : ConstructorWord → Text
  | thisWord => "this"
  | superWord => "super"
  | newWord => "new"

def ExceptionWord.text : ExceptionWord → Text
  | tryWord => "try"
  | exceptWord => "except"
  | finallyWord => "finally"
  | raiseWord => "raise"

def FunctionWord.text : FunctionWord → Text
  | function => "function"
  | method => "method"
  | procedure => "procedure"

def LibraryWord.text : LibraryWord → Text
  | importWord => "import"
  | fromWord => "from"

def Logical.text : Logical → Text
  | and => "and"
  | or => "or"
  | not => "not"

def StatementWord.text : StatementWord → Text
  | returnWord => "return"
  | breakWord => "break"
  | continueWord => "continue"
  | passWord => "pass"
  | printWord => "print"
  | forWord => "for"
  | whileWord => "while"
  | assertWord => "assert"
  | passthroughWord => "passthrough"
  | unittestWord => "unittest"

namespace Keyword

variable {t w : Text} {k : Keyword} {e : Text × Keyword}

def text? : Keyword → Option Text
  | marker m => some m.text
  | comparator c => some c.text
  | conditional w => some w.text
  | constructorWord w => some w.text
  | exceptionWord w => some w.text
  | functionWord w => some w.text
  | libraryWord w => some w.text
  | logical w => some w.text
  | statement w => some w.text
  | userType w => some w.text
  | assignment | attributeWord | operator | typeWord => none

/-! ## Entries -/

/-- No text is two keywords. -/
theorem nodup_table : (table.map Prod.fst).Nodup := by decide +kernel

theorem mem_table_of_ofText? (h : ofText? t = some k) : (t, k) ∈ table := by
  rw [ofText?, lookup_eq_some_iff] at h
  obtain ⟨l₁, l₂, htable, -⟩ := h
  rw [htable]
  exact mem_append_right _ mem_cons_self

theorem ofText?_of_mem_table (he : e ∈ table) : ofText? e.1 = some e.2 := by
  obtain ⟨l₁, l₂, htable⟩ := append_of_mem he
  have hnodup := nodup_table
  rw [htable, map_append, map_cons, nodup_append] at hnodup
  rw [ofText?, lookup_eq_some_iff]
  refine ⟨l₁, l₂, htable, fun p hp => ?_⟩
  rw [bne_iff_ne]
  exact (hnodup.2.2 p.1 (mem_map_of_mem hp) e.1 mem_cons_self).symm

/-- A keyword with a spelling has one entry. -/
theorem text_of_mem_table : ∀ e ∈ table, ∀ w ∈ e.2.text?, e.1 = w := by decide +kernel

theorem mem_table_of_text? (h : k.text? = some w) : (w, k) ∈ table := by
  obtain ⟨⟨t, k'⟩, he, rfl⟩ : ∃ e ∈ table, e.2 = k := by
    cases k with
    | marker w | comparator w | conditional w | constructorWord w | exceptionWord w | functionWord w
    | libraryWord w | logical w | statement w | userType w => cases w <;> decide
    | _ => cases h
  rwa [← text_of_mem_table _ he w h]

/-! ## First bytes -/

theorem head_of_mem_table : ∀ e ∈ table, ∃ b ∈ e.1.head?,
    Text.isLower b ∧ e.2.category.isLineMarker = false ∧ e.2.category ∉ [.assignment, .operator] ∨
      b ∈ Text.signs ∧ (e.2.category.isLineMarker ∨ e.2.category ∈ [.assignment, .comparator, .operator]) := by
  decide +kernel

end Keyword

end Offside
