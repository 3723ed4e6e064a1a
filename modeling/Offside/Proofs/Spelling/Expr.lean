/-
How expressions and types are written.

`Expr.words` and its companions give the words that spell a tree, and `Expr.WellFormed` says which
trees are read off words: what a leaf may be, and which lists may not be empty.
-/
import Offside.Proofs.Lexicon

set_option autoImplicit false

open List

namespace Offside

/-! ## Leaves -/

namespace Lexeme

def isAtom : Lexeme → Bool
  | keyword .typeWord => true
  | keyword (.constructorWord w) => w ≠ .newWord
  | keyword _ => false
  | shape s => s ≠ .punctuation
  | plain => true

end Lexeme

namespace Category

def isArgumentWord (c : Category) : Bool := c.isLiteral || c = .identifier || c = .constant

end Category

def joinsOperands (word : Text) : Bool := word = ".." || (Category.ofText word).isBinary

def startsAccessor (word : Text) : Bool :=
  word = "." || word = "[" || word = "(" || word = "!"

/-! ## The words of a tree -/

def commaWords : List (List Text) → List Text
  | [] => []
  | [item] => item
  | item :: items => item ++ ("," : Text) :: commaWords items

theorem commaWords_cons (item : List Text) {items : List (List Text)} (h : items ≠ []) :
    commaWords (item :: items) = item ++ ("," : Text) :: commaWords items := by
  cases items with
  | nil => exact absurd rfl h
  | cons item' items => rw [commaWords]; exact fun h => nomatch h

/-- A list starts with its first item. -/
theorem commaWords_eq_cons (w : Text) (ws : List Text) (items : List (List Text)) :
    ∃ vs, commaWords ((w :: ws) :: items) = w :: vs := by
  by_cases h : items = []
  · subst h
    exact ⟨ws, rfl⟩
  · exact ⟨_, by rw [commaWords_cons _ h, cons_append]⟩

def parenWords (words : List Text) : List Text := "(" :: (words ++ [(")" : Text)])

def bracketWords (words : List Text) : List Text := "[" :: (words ++ [("]" : Text)])

def BinaryOp.words : BinaryOp → List Text
  | .arithmetic symbol => [symbol]
  | .and => ["and"]
  | .or => ["or"]
  | .compare false c => [c.text]
  | .compare true c => ["not", c.text]
  | .range => [".."]

mutual

def Expr.words : Expr → List Text
  | .single operand => operand.words
  | .binary left op right => left.words ++ (op.words ++ right.words)

def Operand.words : Operand → List Text
  | .minus inner => "-" :: inner.words
  | .negation inner => "not" :: inner.words
  | .new type => "new" :: type.words
  | .newCall type arguments =>
    "new" :: (type.words ++ parenWords (commaWords (Expr.wordLists arguments)))
  | .atom text accessors => text :: Accessor.chainWords accessors
  | .group inner accessors => parenWords inner.words ++ Accessor.chainWords accessors
  | .array elements accessors =>
    bracketWords (commaWords (Element.wordLists elements)) ++ Accessor.chainWords accessors

def Element.words : Element → List Text
  | .item value => value.words
  | .entry key value => key.words ++ (":" : Text) :: value.words

def Accessor.words : Accessor → List Text
  | .member name => [".", name]
  | .whole => bracketWords []
  | .index position => bracketWords position.words
  | .slice low high =>
    bracketWords (Expr.optionalWords low ++ (":" : Text) :: Expr.optionalWords high)
  | .call arguments => parenWords (commaWords (Expr.wordLists arguments))
  | .instantiate argument => "!" :: argument.words
  | .instantiateAll arguments =>
    "!" :: parenWords (commaWords (TemplateArgument.wordLists arguments))

def TemplateArgument.words : TemplateArgument → List Text
  | .type type => type.words
  | .word text => [text]

def TypeExpr.words : TypeExpr → List Text
  | .plain name dimensions => name :: Expr.groupsWords dimensions
  | .applied name argument dimensions =>
    name :: "!" :: (argument.words ++ Expr.groupsWords dimensions)
  | .appliedAll name arguments dimensions =>
    name :: "!" :: (parenWords (commaWords (TemplateArgument.wordLists arguments)) ++
      Expr.groupsWords dimensions)

def Expr.wordLists : List Expr → List (List Text)
  | [] => []
  | e :: es => e.words :: Expr.wordLists es

def Expr.optionalWords : Option Expr → List Text
  | none => []
  | some e => e.words

def Expr.groupsWords : List (List (Option Expr)) → List Text
  | [] => []
  | group :: groups =>
    bracketWords (commaWords (Expr.sizeWords group)) ++ Expr.groupsWords groups

def Expr.sizeWords : List (Option Expr) → List (List Text)
  | [] => []
  | size :: sizes => Expr.optionalWords size :: Expr.sizeWords sizes

def Element.wordLists : List Element → List (List Text)
  | [] => []
  | e :: es => e.words :: Element.wordLists es

def Accessor.chainWords : List Accessor → List Text
  | [] => []
  | a :: as => a.words ++ Accessor.chainWords as

def TemplateArgument.wordLists : List TemplateArgument → List (List Text)
  | [] => []
  | a :: as => a.words :: TemplateArgument.wordLists as

end

theorem Expr.wordLists_eq (es : List Expr) : Expr.wordLists es = es.map Expr.words := by
  induction es with
  | nil => rfl
  | cons e es ih => rw [Expr.wordLists, ih, map_cons]

theorem Expr.sizeWords_eq (sizes : List (Option Expr)) : Expr.sizeWords sizes = sizes.map Expr.optionalWords := by
  induction sizes with
  | nil => rfl
  | cons size sizes ih => rw [Expr.sizeWords, ih, map_cons]

theorem Element.wordLists_eq (es : List Element) : Element.wordLists es = es.map Element.words := by
  induction es with
  | nil => rfl
  | cons e es ih => rw [Element.wordLists, ih, map_cons]

theorem TemplateArgument.wordLists_eq (as : List TemplateArgument) :
    TemplateArgument.wordLists as = as.map TemplateArgument.words := by
  induction as with
  | nil => rfl
  | cons a as ih => rw [TemplateArgument.wordLists, ih, map_cons]

/-! ## What follows a tree -/

mutual

def TypeExpr.takes : TypeExpr → Text → Bool
  | .plain _ dimensions, word => word = "[" || (dimensions.isEmpty && word = "!")
  | .applied _ argument dimensions, word =>
    word = "[" || (dimensions.isEmpty && argument.takes word)
  | .appliedAll _ _ _, word => word = "["

def TemplateArgument.takes : TemplateArgument → Text → Bool
  | .type type, word => type.takes word
  | .word _, _ => false

end

/-- Only a template argument without parentheses can take what follows the accessor. -/
def Accessor.takes : Accessor → Text → Bool
  | .instantiate argument, word => argument.takes word
  | _, _ => false

def Operand.extendedBy : Operand → Text → Bool
  | .minus inner, word => inner.extendedBy word
  | .negation inner, word => inner.extendedBy word
  | .new type, word => word = "(" || type.takes word
  | .newCall _ _, _ => false
  | .atom _ _, word => startsAccessor word
  | .group _ _, word => startsAccessor word
  | .array _ _, word => startsAccessor word

def Expr.extendedBy : Expr → Text → Bool
  | .single operand, word => operand.extendedBy word || joinsOperands word
  | .binary _ _ right, word => right.extendedBy word

/-! ## Trees that are read off words -/

def Accessor.firstWord : Accessor → Text
  | .member _ => "."
  | .whole => "["
  | .index _ => "["
  | .slice _ _ => "["
  | .call _ => "("
  | .instantiate _ => "!"
  | .instantiateAll _ => "!"

def Accessor.Separate : List Accessor → Prop
  | [] => True
  | a :: as => (∀ b ∈ as.head?, a.takes b.firstWord = false) ∧ Accessor.Separate as

def BinaryOp.WellFormed : BinaryOp → Prop
  | .arithmetic symbol => Lexeme.ofText symbol = .keyword .operator
  | _ => True

mutual

def Expr.WellFormed : Expr → Prop
  | .single operand => operand.WellFormed
  | .binary left op right => left.WellFormed ∧ op.WellFormed ∧ right.WellFormed

def Operand.WellFormed : Operand → Prop
  | .minus inner => inner.WellFormed
  | .negation inner => inner.WellFormed
  | .new type => type.WellFormed
  | .newCall type arguments => type.WellFormed ∧ Expr.AllWellFormed arguments
  | .atom text accessors =>
    (Lexeme.ofText text).isAtom = true ∧ Accessor.AllWellFormed accessors ∧
      Accessor.Separate accessors
  | .group inner accessors =>
    inner.WellFormed ∧ Accessor.AllWellFormed accessors ∧ Accessor.Separate accessors
  | .array elements accessors =>
    Element.AllWellFormed elements ∧ Accessor.AllWellFormed accessors ∧
      Accessor.Separate accessors

def Element.WellFormed : Element → Prop
  | .item value => value.WellFormed
  | .entry key value => key.WellFormed ∧ value.WellFormed

def Accessor.WellFormed : Accessor → Prop
  | .member name => name.isWord = true
  | .whole => True
  | .index position => position.WellFormed
  | .slice low high => Expr.OptionalWellFormed low ∧ Expr.OptionalWellFormed high
  | .call arguments => Expr.AllWellFormed arguments
  | .instantiate argument => argument.WellFormed
  | .instantiateAll arguments => arguments ≠ [] ∧ TemplateArgument.AllWellFormed arguments

def TemplateArgument.WellFormed : TemplateArgument → Prop
  | .type type => type.WellFormed
  | .word text => (Category.ofText text).isArgumentWord = true

/-- The dimensions behind a template argument without parentheses are read with it if it is a type. -/
def TypeExpr.WellFormed : TypeExpr → Prop
  | .plain name dimensions =>
    (Category.ofText name).isTypeName = true ∧ Expr.GroupsWellFormed dimensions
  | .applied name argument dimensions =>
    (Category.ofText name).isTypeName = true ∧ argument.WellFormed ∧
      (dimensions = [] ∨ argument.takes "[" = false) ∧ Expr.GroupsWellFormed dimensions
  | .appliedAll name arguments dimensions =>
    (Category.ofText name).isTypeName = true ∧ arguments ≠ [] ∧
      TemplateArgument.AllWellFormed arguments ∧ Expr.GroupsWellFormed dimensions

def Expr.AllWellFormed : List Expr → Prop
  | [] => True
  | e :: es => e.WellFormed ∧ Expr.AllWellFormed es

def Expr.OptionalWellFormed : Option Expr → Prop
  | none => True
  | some e => e.WellFormed

def Expr.GroupsWellFormed : List (List (Option Expr)) → Prop
  | [] => True
  | group :: groups => group ≠ [] ∧ Expr.SizesWellFormed group ∧ Expr.GroupsWellFormed groups

def Expr.SizesWellFormed : List (Option Expr) → Prop
  | [] => True
  | size :: sizes => Expr.OptionalWellFormed size ∧ Expr.SizesWellFormed sizes

def Element.AllWellFormed : List Element → Prop
  | [] => True
  | e :: es => e.WellFormed ∧ Element.AllWellFormed es

def Accessor.AllWellFormed : List Accessor → Prop
  | [] => True
  | a :: as => a.WellFormed ∧ Accessor.AllWellFormed as

def TemplateArgument.AllWellFormed : List TemplateArgument → Prop
  | [] => True
  | a :: as => a.WellFormed ∧ TemplateArgument.AllWellFormed as

end

theorem Expr.allWellFormed_iff {es : List Expr} : Expr.AllWellFormed es ↔ ∀ e ∈ es, e.WellFormed := by
  induction es with
  | nil => exact ⟨fun _ _ h => (nomatch h), fun _ => trivial⟩
  | cons e es ih => rw [Expr.AllWellFormed, ih, forall_mem_cons]

theorem Element.allWellFormed_iff {es : List Element} : Element.AllWellFormed es ↔ ∀ e ∈ es, e.WellFormed := by
  induction es with
  | nil => exact ⟨fun _ _ h => (nomatch h), fun _ => trivial⟩
  | cons e es ih => rw [Element.AllWellFormed, ih, forall_mem_cons]

theorem TemplateArgument.allWellFormed_iff {as : List TemplateArgument} :
    TemplateArgument.AllWellFormed as ↔ ∀ a ∈ as, a.WellFormed := by
  induction as with
  | nil => exact ⟨fun _ _ h => (nomatch h), fun _ => trivial⟩
  | cons a as ih => rw [TemplateArgument.AllWellFormed, ih, forall_mem_cons]

/-- An accessor is told by its first word. -/
theorem Accessor.words_eq_cons (a : Accessor) : ∃ ws, a.words = a.firstWord :: ws := by
  cases a <;> exact ⟨_, rfl⟩

/-! ## Words that go on with a tree -/

def closers : List Text := [")", "]", ",", ":"]

mutual

theorem TypeExpr.word_of_takes {word : Text} : (type : TypeExpr) → type.takes word → word = "[" ∨ word = "!"
  | .plain _ dimensions, h => by
    rw [TypeExpr.takes, Bool.or_eq_true, Bool.and_eq_true] at h
    rcases h with h | ⟨-, h⟩
    · exact .inl (of_decide_eq_true h)
    · exact .inr (of_decide_eq_true h)
  | .applied _ argument dimensions, h => by
    rw [TypeExpr.takes, Bool.or_eq_true, Bool.and_eq_true] at h
    rcases h with h | ⟨-, h⟩
    · exact .inl (of_decide_eq_true h)
    · exact argument.word_of_takes h
  | .appliedAll _ _ _, h => by
    rw [TypeExpr.takes] at h
    exact .inl (of_decide_eq_true h)

theorem TemplateArgument.word_of_takes {word : Text} :
    (argument : TemplateArgument) → argument.takes word → word = "[" ∨ word = "!"
  | .type type, h => type.word_of_takes h
  | .word _, h => nomatch h

end

theorem startsAccessor_of_bracket_or_bang {word : Text} (h : word = "[" ∨ word = "!") :
    startsAccessor word := by
  rcases h with rfl | rfl <;> rfl

variable {word : Text}

theorem Accessor.startsAccessor_of_takes (a : Accessor) (h : a.takes word) : startsAccessor word := by
  cases a with
  | instantiate argument => exact startsAccessor_of_bracket_or_bang (argument.word_of_takes h)
  | _ => cases h

theorem Operand.startsAccessor_of_extendedBy : (o : Operand) → o.extendedBy word → startsAccessor word
  | .minus inner, h | .negation inner, h => inner.startsAccessor_of_extendedBy h
  | .new type, h => by
    rw [Operand.extendedBy, Bool.or_eq_true] at h
    rcases h with h | h
    · rw [of_decide_eq_true h]; rfl
    · exact startsAccessor_of_bracket_or_bang (type.word_of_takes h)
  | .newCall _ _, h => nomatch h
  | .atom _ _, h => h
  | .group _ _, h => h
  | .array _ _, h => h

/-- An expression goes on with an accessor or an operator. -/
theorem Expr.goesOn_of_extendedBy :
    (e : Expr) → e.extendedBy word → startsAccessor word ∨ joinsOperands word
  | .single operand, h => by
    rw [Expr.extendedBy, Bool.or_eq_true] at h
    exact h.imp operand.startsAccessor_of_extendedBy id
  | .binary _ _ right, h => right.goesOn_of_extendedBy h

theorem Expr.extendedBy_of_joinsOperands (h : joinsOperands word) : (e : Expr) → e.extendedBy word
  | .single operand => by rw [Expr.extendedBy, h, Bool.or_true]
  | .binary _ _ right => right.extendedBy_of_joinsOperands h

theorem joinsOperands_of_mem_signs (h : word ∈ Lexeme.signs) (hrange : word ≠ "..") : joinsOperands word = false := by
  rw [joinsOperands, Category.ofText, Lexeme.ofText_sign h, decide_eq_false hrange]
  rfl

/-- No word starts an accessor and joins operands. -/
theorem joinsOperands_of_startsAccessor (h : startsAccessor word) : joinsOperands word = false := by
  rw [startsAccessor, Bool.or_eq_true, Bool.or_eq_true, Bool.or_eq_true] at h
  rcases h with ((h | h) | h) | h <;> rw [of_decide_eq_true h] <;>
    exact joinsOperands_of_mem_signs (by decide) (by decide)

theorem mem_signs_of_mem_closers (h : word ∈ closers) : word ∈ Lexeme.signs := by
  have hall : ∀ w ∈ closers, w ∈ Lexeme.signs := by decide
  exact hall word h

theorem not_goesOn_of_mem_closers (h : word ∈ closers) :
    startsAccessor word = false ∧ joinsOperands word = false := by
  have hall : ∀ w ∈ closers, startsAccessor w = false ∧ w ≠ ".." := by decide
  exact ⟨(hall word h).1, joinsOperands_of_mem_signs (mem_signs_of_mem_closers h) (hall word h).2⟩

/-- It goes on with nothing that closes. -/
theorem Expr.extendedBy_of_mem_closers (h : word ∈ closers) (e : Expr) : e.extendedBy word = false := by
  obtain ⟨hstarts, hjoins⟩ := not_goesOn_of_mem_closers h
  rw [Bool.eq_false_iff]
  intro hext
  rcases e.goesOn_of_extendedBy hext with h | h
  · rw [hstarts] at h; cases h
  · rw [hjoins] at h; cases h

/-! ## First words -/

theorem BinaryOp.words_eq_cons (op : BinaryOp) (h : op.WellFormed) :
    ∃ w ws, op.words = w :: ws ∧ joinsOperands w := by
  have hkeyword : ∀ {w : Text} {k : Keyword}, Lexeme.ofText w = .keyword k →
      k.category.isBinary → joinsOperands w := by
    intro w k hw hk
    rw [joinsOperands, Category.ofText, hw, Lexeme.category, hk, Bool.or_true]
  cases op with
  | arithmetic symbol => exact ⟨_, _, rfl, hkeyword h rfl⟩
  | and => exact ⟨_, _, rfl, hkeyword (Lexeme.ofText_eq_logical_iff (w := .and).mpr rfl) rfl⟩
  | or => exact ⟨_, _, rfl, hkeyword (Lexeme.ofText_eq_logical_iff (w := .or).mpr rfl) rfl⟩
  | compare negated c =>
    cases negated with
    | true => exact ⟨_, _, rfl, hkeyword (Lexeme.ofText_eq_logical_iff (w := .not).mpr rfl) rfl⟩
    | false => exact ⟨_, _, rfl, hkeyword (Lexeme.ofText_eq_comparator_iff.mpr rfl) rfl⟩
  | range => exact ⟨_, _, rfl, rfl⟩

theorem BinaryOp.words_ne_range {op : BinaryOp} (h : op.WellFormed) (hne : op ≠ .range) {w : Text}
    {ws : List Text} (hws : op.words = w :: ws) : w ≠ ".." := by
  cases op with
  | arithmetic symbol =>
    obtain ⟨rfl, -⟩ := cons.inj hws
    rintro rfl
    rw [BinaryOp.WellFormed, Lexeme.ofText_sign (by decide)] at h
    cases h
  | and | or => obtain ⟨rfl, -⟩ := cons.inj hws; decide
  | compare negated c =>
    cases negated <;> obtain ⟨rfl, -⟩ := cons.inj hws
    · cases c <;> decide
    · decide
  | range => exact absurd rfl hne

theorem Operand.words_eq_cons : (o : Operand) → o.WellFormed → ∃ w ws, o.words = w :: ws ∧ w ∉ closers
  | .minus inner, _ | .negation inner, _ | .new type, _ | .newCall _ _, _ => ⟨_, _, by rw [Operand.words], by decide⟩
  | .atom text _, h => ⟨_, _, by rw [Operand.words], fun hmem => by
      have hatom := h.1
      rw [Lexeme.ofText_sign (mem_signs_of_mem_closers hmem)] at hatom
      cases hatom⟩
  | .group _ _, _ => ⟨_, _, by rw [Operand.words, parenWords]; rfl, by decide⟩
  | .array _ _, _ => ⟨_, _, by rw [Operand.words, bracketWords]; rfl, by decide⟩

/-- An expression starts with a word that closes nothing. -/
theorem Expr.words_eq_cons (e : Expr) (h : e.WellFormed) : ∃ w ws, e.words = w :: ws ∧ w ∉ closers := by
  cases e with
  | single operand => exact operand.words_eq_cons h
  | binary left op right =>
    obtain ⟨w, ws, hws, hw⟩ := left.words_eq_cons h.1
    exact ⟨w, ws ++ (op.words ++ right.words), by rw [Expr.words, hws, cons_append], hw⟩

theorem Element.words_eq_cons (e : Element) (h : e.WellFormed) : ∃ w ws, e.words = w :: ws ∧ w ∉ closers := by
  cases e with
  | item value => exact value.words_eq_cons h
  | entry key value =>
    obtain ⟨w, ws, hws, hw⟩ := key.words_eq_cons h.1
    exact ⟨w, _, by rw [Element.words, hws, cons_append], hw⟩

/-- A type starts with the name of one. -/
theorem TypeExpr.words_eq_cons (type : TypeExpr) (h : type.WellFormed) :
    ∃ w ws, type.words = w :: ws ∧ (Category.ofText w).isTypeName := by
  cases type with
  | plain name _ | applied name _ _ | appliedAll name _ _ => exact ⟨name, _, by rw [TypeExpr.words], h.1⟩

theorem TemplateArgument.words_eq_cons (a : TemplateArgument) (h : a.WellFormed) :
    ∃ w ws, a.words = w :: ws ∧ w ≠ "(" := by
  have hparen : Category.ofText "(" = .punctuation := by
    rw [Category.ofText, Lexeme.ofText_sign (by decide)]
    rfl
  cases a with
  | type type =>
    obtain ⟨w, ws, hws, hw⟩ := type.words_eq_cons h
    refine ⟨w, ws, hws, ?_⟩
    rintro rfl
    rw [hparen] at hw
    cases hw
  | word text =>
    refine ⟨text, [], rfl, ?_⟩
    rintro rfl
    rw [TemplateArgument.WellFormed, hparen] at h
    cases h

end Offside
