/-
The code of a tree is woven from its words.

`Woven leaf t` says how a text may come about: from leaves and glue, put together and in brackets.
The code of a well-formed tree is woven from its words, so what holds of these and survives holds of
the code.
-/
import Offside.Proofs.Bracket
import Offside.Proofs.Shape
import Offside.Proofs.Spelling.Clause

set_option autoImplicit false

namespace Offside

open List Text Category

variable {s : Simple} {ts names : List Text} {path : ModulePath} {groups : List ParameterGroup}

namespace Text

def lineEnd : UInt8 := '\n'.toUInt8

def minusSign : UInt8 := '-'.toUInt8

def isGlue (b : UInt8) : Bool := !isBracket b && b != lineEnd && b != minusSign

/-- A text that comes from leaves by the ways in which code is written. A minus sign has spaces
around it, or stands before a text that starts with another byte. If not then the two signs together
have to be a leaf. -/
inductive Woven (leaf : Text → Prop) : Text → Prop
  | leaf {w : Text} (h : leaf w) (hw : w ≠ "-") : Woven leaf w
  | spaced {w : Text} (h : leaf w) : Woven leaf (" " ++ w ++ " ")
  | negative {t : Text} (h : Woven leaf t) (ht : leaf "--" ∨ ∃ b ∈ t.head?, b ≠ minusSign) :
    Woven leaf ("-" ++ t)
  | glue {g : Text} (h : g.all isGlue) : Woven leaf g
  | append {a b : Text} (ha : Woven leaf a) (hb : Woven leaf b) : Woven leaf (a ++ b)
  | enclose {t : Text} (k : Bracket) (h : Woven leaf t) :
    Woven leaf (k.opening :: (t ++ [k.closing]))

def NoDecrement (t : Text) : Prop := t.IsChain fun b c => b = minusSign → c ≠ minusSign

/-- What may be put behind any text without bringing two minus signs together. -/
structure Joins (t : Text) : Prop where
  inside : t.NoDecrement
  head : t.head? ≠ some minusSign

/-- What may be put before any text. -/
structure Settled (t : Text) : Prop where
  inside : t.NoDecrement
  last : t.getLast? ≠ some minusSign

/-- A word that may be part of code: only the minus sign itself ends with one. -/
structure Mild (w : Text) : Prop where
  inside : w.NoDecrement
  last : w.getLast? = some minusSign → w = "-"

section

variable {a b : Text}

theorem noDecrement_of_not_mem (h : minusSign ∉ a) : a.NoDecrement := by
  rw [NoDecrement, isChain_iff_forall_rel_of_append_cons_cons]
  rintro b c before after rfl rfl
  exact absurd (by simp) h

/-- A text that joins nothing may stand behind any other. -/
theorem NoDecrement.join (ha : a.NoDecrement) (hb : b.Joins) : (a ++ b).NoDecrement :=
  isChain_append.mpr ⟨ha, hb.inside, fun _ _ _ hc _ hminus => hb.head (hminus ▸ hc)⟩

/-- Behind a settled text no sign comes together with one. -/
theorem Settled.append (ha : a.Settled) (hb : b.NoDecrement) : (a ++ b).NoDecrement :=
  isChain_append.mpr ⟨ha.inside, hb, fun _ hc _ _ hminus => absurd (hminus ▸ hc) ha.last⟩

theorem settled_of_not_mem (h : minusSign ∉ a) : a.Settled :=
  ⟨noDecrement_of_not_mem h, fun hlast => h (mem_of_mem_getLast? hlast)⟩

theorem Settled.trans (ha : a.Settled) (hb : b.Settled) : (a ++ b).Settled :=
  ⟨ha.append hb.inside, getLast?_append_ne ha.last hb.last⟩

end

namespace Woven

variable {leaf : Text → Prop} {t : Text}

theorem nil : Woven leaf [] := .glue rfl

theorem enclosed (k : Bracket) {a h c : Text} (ha : Woven leaf a) (ht : Woven leaf t)
    (hh : h = a ++ [k.opening]) (hc : c = [k.closing]) : Woven leaf (h ++ t ++ c) := by
  rw [hh, hc, append_assoc, append_assoc]
  exact .append ha (.enclose k ht)

/-- Woven texts may be joined with glue. -/
theorem join {g : Text} (hg : g.all isGlue) (h : ∀ t ∈ ts, Woven leaf t) : Woven leaf (Text.join g ts) := by
  rw [Text.join]
  induction ts with
  | nil => exact .nil
  | cons t ts ih =>
    obtain ⟨ht, hts⟩ := forall_mem_cons.mp h
    cases ts with
    | nil => rw [intercalate_singleton]; exact ht
    | cons u us =>
      rw [intercalate_cons_cons]
      exact .append (.append ht (.glue hg)) (ih hts)

theorem commaSeparated (h : ∀ t ∈ ts, Woven leaf t) : Woven leaf (Offside.commaSeparated ts) := join rfl h

/-! ## What follows -/

theorem not_mem_of_glue {g : Text} {b : UInt8} (h : g.all isGlue) (hb : isGlue b = false) : b ∉ g := by
  intro hmem
  rw [all_eq_true.mp h b hmem] at hb
  cases hb

/-- What is woven of words without brackets is balanced. -/
theorem balanced (h : Woven leaf t) (hleaf : ∀ w, leaf w → ∀ b ∈ w, isBracket b = false) : Balanced t := by
  have hglue : ∀ {g : Text}, g.all isGlue → Balanced g := fun hg =>
    balanced_of_no_bracket fun b hb => Bool.eq_false_iff.mpr fun hbracket =>
      not_mem_of_glue hg (by rw [isGlue, hbracket]; rfl) hb
  induction h with
  | leaf h => exact balanced_of_no_bracket (hleaf _ h)
  | spaced h =>
    have hspace : Balanced ((" " : String) : Text) := hglue rfl
    exact (hspace.append (balanced_of_no_bracket (hleaf _ h))).append hspace
  | negative _ _ ih =>
    have hsign : ((("-" : String) : Text).all fun b => !isBracket b) = true := rfl
    exact Balanced.append (balanced_of_no_bracket fun b hb => by simpa using all_eq_true.mp hsign b hb) ih
  | glue h => exact hglue h
  | append _ _ iha ihb => exact iha.append ihb
  | enclose k _ ih => exact ih.enclose k

/-- What is woven of words on one line is on one line. -/
theorem lineEnd_not_mem (h : Woven leaf t) (hleaf : ∀ w, leaf w → lineEnd ∉ w) : lineEnd ∉ t := by
  have hspace : lineEnd ∉ ((" " : String) : Text) := by decide
  induction h with
  | leaf h => exact hleaf _ h
  | spaced h => simp [hspace, hleaf _ h]
  | negative _ _ ih =>
    have hsign : lineEnd ∉ (("-" : String) : Text) := by decide
    simp [hsign, ih]
  | glue h => exact not_mem_of_glue h rfl
  | append _ _ iha ihb => simp [iha, ihb]
  | enclose k _ ih =>
    have hends : lineEnd ≠ k.opening ∧ lineEnd ≠ k.closing := by cases k <;> decide
    simp [ih, hends.1, hends.2]

/-- What is woven of mild words is settled. -/
theorem settled (h : Woven Mild t) : Settled t := by
  have hspace : Settled (" " : Text) := settled_of_not_mem (by decide)
  induction h with
  | leaf h hw => exact ⟨h.inside, fun hlast => hw (h.last hlast)⟩
  | spaced h =>
    refine ⟨NoDecrement.join (hspace.append h.inside) ⟨hspace.inside, by decide⟩, ?_⟩
    rw [getLast?_append_of_ne_nil _ (by decide)]
    exact hspace.last
  | @negative t _ ht ih =>
    obtain hno | ⟨b, hb, hne⟩ := ht
    · exact absurd hno.inside (by unfold NoDecrement; decide)
    · have hhead : t.head? ≠ some minusSign := fun hminus => hne (Option.some.inj (hb.symm.trans hminus))
      refine ⟨NoDecrement.join (isChain_singleton minusSign) ⟨ih.inside, hhead⟩, ?_⟩
      rw [getLast?_append_of_ne_nil _ (by rintro rfl; cases hb)]
      exact ih.last
  | glue h => exact settled_of_not_mem (not_mem_of_glue h rfl)
  | append _ _ iha ihb => exact iha.trans ihb
  | enclose k _ ih =>
    have hends : minusSign ∉ [k.opening] ∧ minusSign ∉ [k.closing] := by cases k <;> decide
    exact (settled_of_not_mem hends.1).trans (ih.trans (settled_of_not_mem hends.2))

end Woven

end Text

/-! ## Words that are leaves -/

def endsOperand (word : Text) : Bool := (Lexeme.ofText word).isAtom || word = ")" || word = "]"

/-- No two minus signs follow each other where an operand starts, and no word that is an operand
starts with one. -/
structure Apart (words : List Text) : Prop where
  signs : ∀ p : Text, [p, "-", "-"] <:+: words → endsOperand p
  atoms : ∀ w ∈ words, (Lexeme.ofText w).isAtom → ∃ b ∈ w.head?, b ≠ minusSign

/-- All words but the punctuation are leaves, and two minus signs that come together are one too. -/
structure Leaves (leaf : Text → Prop) (words : List Text) : Prop where
  word : ∀ w ∈ words, ofText w ≠ .punctuation → leaf w
  apart : leaf "--" ∨ Apart words

def StartLeaves (leaf : Text → Prop) (words : List Text) : Prop :=
  ∃ p, endsOperand p = false ∧ Leaves leaf (p :: words)

variable {bare : Bool} {w : Text} {ws vs : List Text} {f : FunctionHeader}

theorem endsOperand_keyword {k : Keyword} (h : Lexeme.ofText w = .keyword k)
    (hk : (Lexeme.keyword k).isAtom = false) : endsOperand w = false := by
  have hsign : ∀ sign ∈ Lexeme.signs, w ≠ sign := by
    rintro sign hsign rfl
    rw [Lexeme.ofText_sign hsign] at h
    cases h
  simp [endsOperand, h, hk, hsign ")" (by decide), hsign "]" (by decide)]

theorem endsOperand_sign (h : w ∈ Lexeme.signs) (hround : w ≠ ")") (hsquare : w ≠ "]") : endsOperand w = false := by
  simp [endsOperand, Lexeme.ofText_sign h, Lexeme.isAtom, hround, hsquare]

theorem endsOperand_comma : endsOperand "," = false := endsOperand_sign (by decide) (by decide) (by decide)

theorem endsOperand_colon : endsOperand ":" = false := endsOperand_sign (by decide) (by decide) (by decide)

theorem endsOperand_assignment (h : ofText w = .assignment) : endsOperand w = false := by
  rw [ofText] at h
  cases hl : Lexeme.ofText w with
  | plain => rw [hl] at h; cases h
  | shape s => rw [hl] at h; cases s <;> cases h
  | keyword k =>
    rw [hl] at h
    refine endsOperand_keyword hl ?_
    cases k with
    | assignment => rfl
    | marker m => cases m <;> cases h
    | _ => cases h

namespace Category

def Spells (w : Text) : Prop := ofText w ≠ .punctuation ∧ w ≠ "-"

theorem spells_of_isAtom (h : (Lexeme.ofText w).isAtom) : Spells w := by
  refine ⟨fun hcategory => ?_, ?_⟩
  · rw [Lexeme.category_eq_punctuation_iff.mp hcategory] at h
    cases h
  · rintro rfl
    rw [Lexeme.ofText_minus] at h
    cases h

theorem spells_of_eq {c : Category} (h : ofText w = c) (hc : c ≠ .punctuation ∧ c ≠ .operator) : Spells w := by
  refine ⟨h ▸ hc.1, ?_⟩
  rintro rfl
  exact hc.2 (h.symm.trans (congrArg Lexeme.category Lexeme.ofText_minus))

theorem spells_of_isTypeName (h : (ofText w).isTypeName) : Spells w := by
  refine spells_of_eq rfl ?_
  revert h
  cases ofText w <;> decide

theorem spells_of_isArgumentWord (h : (ofText w).isArgumentWord) : Spells w := by
  refine spells_of_eq rfl ?_
  revert h
  cases ofText w <;> decide

theorem spells_of_isWord (h : w.isWord) : Spells w := by
  cases w with
  | nil => cases h
  | cons b w =>
    rw [Text.isWord, Bool.and_eq_true] at h
    refine ⟨fun hcategory => ?_, ?_⟩
    · have hlexeme := Lexeme.category_eq_punctuation_iff.mp hcategory
      have hshape : Shape.punctuation.fits (b :: w) := by
        rw [Lexeme.ofText] at hlexeme
        split at hlexeme
        · cases hlexeme
        · split at hlexeme
          · next s hs =>
            cases hlexeme
            exact find?_some (p := fun s : Shape => s.fits (b :: w)) hs
          · cases hlexeme
      rw [Shape.fits, isPunctuation, Bool.and_eq_true, all_cons, Bool.and_eq_true] at hshape
      have hb := startsWord_of_mem_signs (contains_iff_mem.mp hshape.2.1)
      rw [h.1] at hb
      cases hb
    · intro hminus
      obtain ⟨rfl, -⟩ := cons.inj (hminus.trans (by decide : ((("-" : String) : Text) = [minusSign])))
      exact absurd h.1 (by decide)

end Category

section Leaves

variable {leaf : Text → Prop}

namespace Leaves

/-- Leaves of words are leaves of a part of them. -/
theorem part (h : Leaves leaf ws) (hvs : vs <:+: ws) : Leaves leaf vs where
  word w hw := h.word w (hvs.subset hw)
  apart := h.apart.imp_right fun hapart =>
    ⟨fun p hp => hapart.signs p (hp.trans hvs), fun w hw => hapart.atoms w (hvs.subset hw)⟩

theorem tail (h : Leaves leaf (w :: ws)) : Leaves leaf ws := h.part (suffix_cons w ws).isInfix

theorem left (h : Leaves leaf (ws ++ vs)) : Leaves leaf ws := h.part (prefix_append ws vs).isInfix

theorem right (h : Leaves leaf (ws ++ vs)) : Leaves leaf vs := h.part (suffix_append ws vs).isInfix

theorem behind (h : Leaves leaf (w :: ws)) (hw : endsOperand w = false) : StartLeaves leaf ws := ⟨w, hw, h⟩

theorem behindWord (h : Leaves leaf (w :: ws)) (k : Keyword) (hw : k.text? = some w)
    (hk : (Lexeme.keyword k).isAtom = false) : StartLeaves leaf ws :=
  h.behind (endsOperand_keyword (Lexeme.ofText_text hw) hk)

theorem first (h : Leaves leaf (w :: ws)) (hw : Category.Spells w) : leaf w :=
  h.word w mem_cons_self hw.1

theorem mem (h : Leaves leaf ws) (hmem : w ∈ ws) (hw : Category.Spells w) : Woven leaf w :=
  .leaf (h.word w hmem hw.1) hw.2

theorem head (h : Leaves leaf (w :: ws)) (hw : Category.Spells w) : Woven leaf w := h.mem mem_cons_self hw

end Leaves

namespace StartLeaves

theorem leaves (h : StartLeaves leaf ws) : Leaves leaf ws := by
  obtain ⟨p, -, h⟩ := h
  exact h.tail

theorem left (h : StartLeaves leaf (ws ++ vs)) : StartLeaves leaf ws := by
  obtain ⟨p, hp, h⟩ := h
  exact ⟨p, hp, h.part (prefix_append (p :: ws) vs).isInfix⟩

end StartLeaves

/-- What holds of a list holds of its items. -/
theorem forall_of_comma {P : List Text → Prop} (hleft : ∀ {ws vs : List Text}, P (ws ++ vs) → P ws)
    (hright : ∀ {ws vs : List Text}, P (ws ++ ("," : Text) :: vs) → P vs) {items : List (List Text)}
    (h : P (commaWords items)) : ∀ item ∈ items, P item := by
  induction items with
  | nil => exact fun _ hitem => nomatch hitem
  | cons item items ih =>
    by_cases hnil : items = []
    · subst hnil
      exact forall_mem_singleton.mpr h
    · rw [commaWords_cons _ hnil] at h
      exact forall_mem_cons.mpr ⟨hleft h, ih (hright h)⟩

theorem Leaves.of_comma {items : List (List Text)} (h : Leaves leaf (commaWords items)) :
    ∀ item ∈ items, Leaves leaf item := forall_of_comma Leaves.left (fun h => h.right.tail) h

theorem StartLeaves.of_comma {items : List (List Text)} (h : StartLeaves leaf (commaWords items)) :
    ∀ item ∈ items, StartLeaves leaf item :=
  forall_of_comma StartLeaves.left (fun h => h.leaves.right.behind endsOperand_comma) h

theorem Leaves.of_paren (h : Leaves leaf (parenWords ws)) : StartLeaves leaf ws :=
  (h.behind (endsOperand_sign (by decide) (by decide) (by decide))).left

theorem Leaves.of_bracket (h : Leaves leaf (bracketWords ws)) : StartLeaves leaf ws :=
  (h.behind (endsOperand_sign (by decide) (by decide) (by decide))).left

theorem StartLeaves.of_names (h : StartLeaves leaf (nameWords names)) :
    ∀ name ∈ names, Category.Spells name → Woven leaf name := by
  intro name hname
  exact (h.of_comma [name] (mem_map_of_mem hname)).leaves.head

end Leaves

/-! ## Expressions and types -/

section

variable {leaf : Text → Prop}

/-- An operator weaves two woven texts into one. -/
theorem BinaryOp.woven {op : BinaryOp} (h : op.WellFormed) (hl : Leaves leaf op.words)
    {left right : Text} (hleft : Woven leaf left) (hright : Woven leaf right) : Woven leaf (op.code left right) := by
  have hbetween : ∀ symbol : Text, Woven leaf (" " ++ symbol ++ " ") →
      Woven leaf (left ++ " " ++ symbol ++ " " ++ right) := by
    intro symbol hsymbol
    simpa only [append_assoc] using Woven.append (.append hleft hsymbol) hright
  have hcall : ∀ {head a b : Text} (name : Text), head = name ++ "(" → name.all isGlue →
      Woven leaf a → Woven leaf b → Woven leaf (head ++ a ++ ", " ++ b ++ ")") := by
    intro head a b name hhead hname ha hb
    rw [append_assoc head, append_assoc head]
    exact Woven.enclosed .round (.glue hname) (.append (.append ha (.glue rfl)) hb) hhead rfl
  cases op with
  | arithmetic symbol =>
    refine hbetween symbol (.spaced (hl.word symbol (mem_singleton.mpr rfl) ?_))
    have hsymbol : Lexeme.ofText symbol = .keyword .operator := h
    rw [ofText, hsymbol]
    decide
  | and | or => exact hbetween _ (.glue rfl)
  | range => exact hcall "range" rfl rfl hleft hright
  | compare negated c =>
    cases c with
    | member =>
      cases negated with
      | false => exact hcall "contains" rfl rfl hright hleft
      | true => exact hcall "!contains" rfl rfl hright hleft
    | _ => cases negated <;> exact hbetween _ (.glue rfl)

theorem BinaryOp.behind {op : BinaryOp} (h : op.WellFormed) (hl : Leaves leaf (op.words ++ ws)) :
    StartLeaves leaf ws := by
  cases op with
  | arithmetic symbol =>
    have hsymbol : Lexeme.ofText symbol = .keyword .operator := h
    exact Leaves.behind hl (endsOperand_keyword hsymbol rfl)
  | and => exact Leaves.behindWord hl (.logical .and) rfl rfl
  | or => exact Leaves.behindWord hl (.logical .or) rfl rfl
  | range => exact Leaves.behind hl (endsOperand_sign (by decide) (by decide) (by decide))
  | compare negated c =>
    cases negated with
    | false => exact Leaves.behindWord hl (.comparator c) rfl rfl
    | true => exact Leaves.behindWord (Leaves.tail hl) (.comparator c) rfl rfl

/-- Two minus signs come together, or the operand starts with something else. -/
theorem Operand.start {o : Operand} (h : o.WellFormed) (hl : StartLeaves leaf ("-" :: o.words)) :
    leaf "--" ∨ ∃ b ∈ o.code.head?, b ≠ minusSign := by
  obtain ⟨p, hp, hl⟩ := hl
  refine hl.apart.imp_right fun hapart => ?_
  cases o with
  | minus inner =>
    have hends := hapart.signs p ⟨[], inner.words, rfl⟩
    rw [hp] at hends
    cases hends
  | atom text accessors =>
    obtain ⟨b, hb, hne⟩ := hapart.atoms text (by simp [Operand.words]) h.1
    obtain ⟨rest, rfl⟩ := head?_eq_some_iff.mp hb
    exact ⟨b, rfl, hne⟩
  | _ => exact ⟨_, rfl, by decide⟩

mutual

/-- The code of an expression is woven from its words, by induction on the trees. -/
theorem Expr.woven : ∀ e : Expr, e.WellFormed → StartLeaves leaf e.words → Woven leaf e.code
  | .single operand, h, hl => operand.woven h hl
  | .binary left op right, h, hl => by
    obtain ⟨hleft, hop, hright⟩ := h
    have hrest : Leaves leaf (op.words ++ right.words) := hl.leaves.right
    exact BinaryOp.woven hop hrest.left (left.woven hleft hl.left) (right.woven hright (BinaryOp.behind hop hrest))

theorem Operand.woven : ∀ o : Operand, o.WellFormed → StartLeaves leaf o.words → Woven leaf o.code
  | .minus inner, h, hl =>
    .negative (inner.woven h (hl.leaves.behind (endsOperand_keyword Lexeme.ofText_minus rfl))) (Operand.start h hl)
  | .negation inner, h, hl =>
    .append (.glue rfl) (inner.woven h (hl.leaves.behindWord (.logical .not) rfl rfl))
  | .new type, h, hl => .append (.glue rfl) (type.woven h hl.leaves.tail)
  | .newCall type arguments, h, hl => by
    obtain ⟨htype, harguments⟩ := h
    have hl : Leaves leaf (type.words ++ parenWords (commaWords (Expr.wordLists arguments))) := hl.leaves.tail
    exact .enclosed .round (.append (.glue rfl) (type.woven htype hl.left))
      (.commaSeparated (Expr.allWoven arguments harguments hl.right.of_paren.of_comma)) rfl rfl
  | .atom text accessors, h, hl => by
    obtain ⟨htext, haccessors, -⟩ := h
    exact .append (hl.leaves.head (spells_of_isAtom htext))
      (Accessor.allWoven accessors haccessors hl.leaves.tail)
  | .group inner accessors, h, hl => by
    obtain ⟨hinner, haccessors, -⟩ := h
    have hl : Leaves leaf (parenWords inner.words ++ Accessor.chainWords accessors) := hl.leaves
    exact .append (.enclosed .round .nil (inner.woven hinner hl.left.of_paren) rfl rfl)
      (Accessor.allWoven accessors haccessors hl.right)
  | .array elements accessors, h, hl => by
    obtain ⟨helements, haccessors, -⟩ := h
    have hl : Leaves leaf (bracketWords (commaWords (Element.wordLists elements)) ++
      Accessor.chainWords accessors) := hl.leaves
    exact .append (.enclosed .square .nil
        (.commaSeparated (Element.allWoven elements helements hl.left.of_bracket.of_comma)) rfl rfl)
      (Accessor.allWoven accessors haccessors hl.right)

theorem Element.woven : ∀ e : Element, e.WellFormed → StartLeaves leaf e.words → Woven leaf e.code
  | .item value, h, hl => value.woven h hl
  | .entry key value, h, hl => by
    obtain ⟨hkey, hvalue⟩ := h
    have hrest : Leaves leaf (":" :: value.words) := hl.leaves.right
    exact .append (.append (key.woven hkey hl.left) (.glue rfl)) (value.woven hvalue (hrest.behind endsOperand_colon))

theorem Accessor.woven : ∀ a : Accessor, a.WellFormed → Leaves leaf a.words → Woven leaf a.code
  | .member name, h, hl => .append (.glue rfl) (hl.tail.head (spells_of_isWord h))
  | .whole, _, _ => .enclose .square .nil
  | .index position, h, hl => .enclosed .square .nil (position.woven h hl.of_bracket) rfl rfl
  | .slice low high, h, hl => by
    obtain ⟨hlow, hhigh⟩ := h
    have hl := hl.of_bracket
    have hrest : Leaves leaf (":" :: Expr.optionalWords high) := hl.leaves.right
    have hlow := Expr.optionalWoven "0" rfl low hlow hl.left
    have hhigh := Expr.optionalWoven "$" rfl high hhigh (hrest.behind endsOperand_colon)
    rw [Accessor.code, append_assoc (ofString "["), append_assoc (ofString "[")]
    exact .enclosed .square .nil (.append (.append hlow (.glue rfl)) hhigh) rfl rfl
  | .call arguments, h, hl =>
    .enclosed .round .nil (.commaSeparated (Expr.allWoven arguments h hl.of_paren.of_comma)) rfl rfl
  | .instantiate argument, h, hl => .append (.glue rfl) (argument.woven h hl.tail)
  | .instantiateAll arguments, h, hl =>
    .enclosed .round (.glue rfl) (.commaSeparated
      (TemplateArgument.allWoven arguments h.2 (Leaves.of_paren hl.tail).of_comma)) rfl rfl

theorem TemplateArgument.woven : ∀ a : TemplateArgument, a.WellFormed → Leaves leaf a.words → Woven leaf a.code
  | .type type, h, hl => type.woven h hl
  | .word _, h, hl => hl.head (spells_of_isArgumentWord h)

theorem TypeExpr.woven : ∀ t : TypeExpr, t.WellFormed → Leaves leaf t.words → Woven leaf t.code
  | .plain name dimensions, h, hl => by
    obtain ⟨hname, hdimensions⟩ := h
    exact .append (hl.head (spells_of_isTypeName hname))
      (Expr.groupsWoven dimensions hdimensions hl.tail)
  | .applied name argument dimensions, h, hl => by
    obtain ⟨hname, hargument, -, hdimensions⟩ := h
    have hrest : Leaves leaf (argument.words ++ Expr.groupsWords dimensions) := hl.tail.tail
    exact .append (.append (.append (hl.head (spells_of_isTypeName hname)) (.glue rfl))
      (argument.woven hargument hrest.left)) (Expr.groupsWoven dimensions hdimensions hrest.right)
  | .appliedAll name arguments dimensions, h, hl => by
    obtain ⟨hname, -, harguments, hdimensions⟩ := h
    have hhead := hl.head (spells_of_isTypeName hname)
    have hrest : Leaves leaf (parenWords (commaWords (TemplateArgument.wordLists arguments)) ++
      Expr.groupsWords dimensions) := hl.tail.tail
    rw [TypeExpr.code]
    refine .append (.enclosed .round (a := name ++ "!") (.append hhead (.glue rfl))
      (.commaSeparated (TemplateArgument.allWoven arguments harguments
        hrest.left.of_paren.of_comma)) ?_ rfl) (Expr.groupsWoven dimensions hdimensions hrest.right)
    rw [append_assoc]
    rfl

theorem Expr.allWoven : ∀ es : List Expr, Expr.AllWellFormed es →
    (∀ ws ∈ Expr.wordLists es, StartLeaves leaf ws) → ∀ t ∈ Expr.codes es, Woven leaf t
  | [], _, _ => fun _ ht => nomatch ht
  | e :: es, h, hl => by
    obtain ⟨he, hes⟩ := h
    obtain ⟨hle, hles⟩ := forall_mem_cons.mp hl
    exact forall_mem_cons.mpr ⟨e.woven he hle, Expr.allWoven es hes hles⟩

theorem Expr.optionalWoven (absent : Text) (habsent : absent.all isGlue) :
    ∀ o : Option Expr, Expr.OptionalWellFormed o → StartLeaves leaf (Expr.optionalWords o) →
      Woven leaf (Expr.optionalCode absent o)
  | none, _, _ => .glue habsent
  | some e, h, hl => e.woven h hl

theorem Expr.groupsWoven : ∀ groups : List (List (Option Expr)), Expr.GroupsWellFormed groups →
    Leaves leaf (Expr.groupsWords groups) → Woven leaf (Expr.groupsCode groups)
  | [], _, _ => .nil
  | group :: groups, h, hl => by
    obtain ⟨-, hgroup, hgroups⟩ := h
    have hl : Leaves leaf (bracketWords (commaWords (Expr.sizeWords group)) ++ Expr.groupsWords groups) := hl
    exact .append (Expr.groupWoven group hgroup hl.left.of_bracket.of_comma)
      (Expr.groupsWoven groups hgroups hl.right)

theorem Expr.groupWoven : ∀ sizes : List (Option Expr), Expr.SizesWellFormed sizes →
    (∀ ws ∈ Expr.sizeWords sizes, StartLeaves leaf ws) → Woven leaf (Expr.groupCode sizes)
  | [], _, _ => .nil
  | size :: sizes, h, hl => by
    obtain ⟨hsize, hsizes⟩ := h
    obtain ⟨hlsize, hlsizes⟩ := forall_mem_cons.mp hl
    rw [Expr.groupCode]
    exact .append (.enclosed .square .nil (Expr.optionalWoven _ rfl size hsize hlsize) rfl rfl)
      (Expr.groupWoven sizes hsizes hlsizes)

theorem Element.allWoven : ∀ es : List Element, Element.AllWellFormed es →
    (∀ ws ∈ Element.wordLists es, StartLeaves leaf ws) → ∀ t ∈ Element.codes es, Woven leaf t
  | [], _, _ => fun _ ht => nomatch ht
  | e :: es, h, hl => by
    obtain ⟨he, hes⟩ := h
    obtain ⟨hle, hles⟩ := forall_mem_cons.mp hl
    exact forall_mem_cons.mpr ⟨e.woven he hle, Element.allWoven es hes hles⟩

theorem Accessor.allWoven : ∀ as : List Accessor, Accessor.AllWellFormed as →
    Leaves leaf (Accessor.chainWords as) → Woven leaf (Accessor.codes as)
  | [], _, _ => .nil
  | a :: as, h, hl => by
    obtain ⟨ha, has⟩ := h
    have hl : Leaves leaf (a.words ++ Accessor.chainWords as) := hl
    exact .append (a.woven ha hl.left) (Accessor.allWoven as has hl.right)

theorem TemplateArgument.allWoven : ∀ as : List TemplateArgument,
    TemplateArgument.AllWellFormed as → (∀ ws ∈ TemplateArgument.wordLists as, StartLeaves leaf ws) →
      ∀ t ∈ TemplateArgument.codes as, Woven leaf t
  | [], _, _ => fun _ ht => nomatch ht
  | a :: as, h, hl => by
    obtain ⟨ha, has⟩ := h
    obtain ⟨hla, hlas⟩ := forall_mem_cons.mp hl
    exact forall_mem_cons.mpr ⟨a.woven ha hla.leaves, TemplateArgument.allWoven as has hlas⟩

end

/-! ## Declarations -/

theorem leaf_of_head {name l : Text} (hl : Leaves leaf (name :: ws))
    (h : l ∈ if ofText name = .templateType then [name] else []) : Woven leaf l := by
  split at h
  · next hcategory =>
    obtain rfl := mem_singleton.mp h
    exact hl.head (spells_of_eq hcategory (by decide))
  · cases h

mutual

/-- The letters of a type are among its words. -/
theorem TypeExpr.leaf_of_letter : ∀ t : TypeExpr, Leaves leaf t.words → ∀ l ∈ t.letters, Woven leaf l
  | .plain name _, hl, l, h => by
    rw [TypeExpr.letters] at h
    exact leaf_of_head hl h
  | .applied name argument dimensions, hl, l, h => by
    rw [TypeExpr.letters, mem_append] at h
    rcases h with h | h
    · exact leaf_of_head hl h
    · exact argument.leaf_of_letter (Leaves.left hl.tail.tail) l h
  | .appliedAll name arguments dimensions, hl, l, h => by
    rw [TypeExpr.letters, mem_append] at h
    rcases h with h | h
    · exact leaf_of_head hl h
    · exact TemplateArgument.leaf_of_letters arguments (Leaves.left hl.tail.tail).of_paren.of_comma l h

theorem TemplateArgument.leaf_of_letter : ∀ a : TemplateArgument, Leaves leaf a.words → ∀ l ∈ a.letters, Woven leaf l
  | .type type, hl, l, h => type.leaf_of_letter hl l h
  | .word _, _, _, h => nomatch h

theorem TemplateArgument.leaf_of_letters : ∀ as : List TemplateArgument,
    (∀ ws ∈ TemplateArgument.wordLists as, StartLeaves leaf ws) → ∀ l ∈ TemplateArgument.lettersOf as, Woven leaf l
  | [], _, _, h => nomatch h
  | a :: as, hl, l, h => by
    obtain ⟨hla, hlas⟩ := forall_mem_cons.mp hl
    rw [TemplateArgument.lettersOf, mem_append] at h
    rcases h with h | h
    · exact a.leaf_of_letter hla.leaves l h
    · exact TemplateArgument.leaf_of_letters as hlas l h

end

theorem mem_of_mem_firsts {α : Type} [DecidableEq α] {a : α} {as : List α} (h : a ∈ firsts as) : a ∈ as := by
  induction as with
  | nil => exact h
  | cons b bs ih =>
    rw [firsts, mem_cons, mem_filter] at h
    rcases h with rfl | ⟨h, -⟩
    · exact mem_cons_self
    · exact mem_cons_of_mem _ (ih h)

theorem Binding.woven {b : Binding} (h : b.WellFormed) (hl : Leaves leaf b.words) : Woven leaf b.code := by
  obtain ⟨name, value⟩ := b
  obtain ⟨hname, hvalue⟩ := h
  have hname := spells_of_eq hname (by decide)
  cases value with
  | none => exact hl.head hname
  | some value =>
    have hhead : Woven leaf name := hl.head hname
    exact .append (.append hhead (.glue rfl))
      (value.woven hvalue (hl.tail.behind (endsOperand_keyword Lexeme.ofText_equals rfl)))

theorem ParameterGroup.woven {g : ParameterGroup} (h : g.WellFormed)
    (hl : ∀ item ∈ g.items, Leaves leaf item) : ∀ t ∈ g.codes, Woven leaf t := by
  obtain ⟨storage, type, bindings⟩ := g
  obtain ⟨hstorage, htype, hbindings, hnonempty⟩ := h
  cases bindings with
  | nil => exact absurd rfl hnonempty
  | cons b bs =>
    obtain ⟨hfirst, hothers⟩ := forall_mem_cons.mp hl
    have hrest : Leaves leaf (type.words ++ b.words) := hfirst.right
    have htypeCode : Woven leaf (ParameterGroup.typeCode ⟨storage, type, b :: bs⟩) := by
      refine Woven.join rfl (forall_mem_append.mpr ⟨fun w hw => ?_, ?_⟩)
      · exact hfirst.left.mem hw (spells_of_eq (hstorage w hw) (by decide))
      · exact forall_mem_singleton.mpr (type.woven htype hrest.left)
    have hwords : ∀ b' ∈ b :: bs, Leaves leaf b'.words :=
      forall_mem_cons.mpr ⟨hrest.right, fun b' hb' => hothers _ (mem_map_of_mem hb')⟩
    intro t ht
    obtain ⟨b', hb', rfl⟩ := mem_map.mp ht
    exact .append (.append htypeCode (.glue rfl)) (Binding.woven (hbindings b' hb') (hwords b' hb'))

/-- The code of parameters is woven from their words. -/
theorem ParameterGroup.listWoven (h : ∀ g ∈ groups, g.WellFormed)
    (hl : Leaves leaf (ParameterGroup.listWords groups)) : Woven leaf (ParameterGroup.listCode groups) := by
  refine Woven.commaSeparated fun t ht => ?_
  obtain ⟨g, hg, ht⟩ := mem_flatMap.mp ht
  refine ParameterGroup.woven (h g hg) (fun item hitem => ?_) t ht
  exact (hl.of_paren.of_comma item (mem_flatMap.mpr ⟨g, hg, hitem⟩)).leaves

theorem ParameterGroup.leaf_of_letter (h : ∀ g ∈ groups, g.WellFormed)
    (hl : Leaves leaf (ParameterGroup.listWords groups)) : ∀ l ∈ groups.flatMap (·.type.letters), Woven leaf l := by
  intro l hletter
  obtain ⟨⟨storage, type, bindings⟩, hg, hletter⟩ := mem_flatMap.mp hletter
  cases bindings with
  | nil => exact absurd rfl (h _ hg).nonempty
  | cons b bs =>
    have hitem := hl.of_paren.of_comma (storage ++ (type.words ++ b.words))
      (mem_flatMap.mpr ⟨_, hg, mem_cons_self⟩)
    exact type.leaf_of_letter hitem.leaves.right.left l hletter

theorem parameterList_woven (h : ∀ name ∈ names, Woven leaf name) : Woven leaf (parameterList names) := by
  cases names with
  | nil => exact .nil
  | cons name names => exact .enclosed .round .nil (.commaSeparated h) rfl rfl

theorem FunctionHeader.leaves_parameters (hl : Leaves leaf (f.words bare)) :
    Leaves leaf (ParameterGroup.listWords f.parameters) ∧ Leaves leaf f.resultWords := by
  refine ⟨?_, Leaves.right hl.tail⟩
  by_cases hbare : (bare && f.parameters.isEmpty)
  · rw [Bool.and_eq_true, List.isEmpty_iff] at hbare
    rw [hbare.2, ParameterGroup.listWords, flatMap_nil]
    have hsigns : ∀ w ∈ parenWords (commaWords []), Lexeme.ofText w = .shape .punctuation :=
      fun w hw => Lexeme.ofText_sign (List.Sublist.subset (by decide) hw)
    refine ⟨fun w hw hcategory => absurd (Lexeme.category_eq_punctuation_iff.mpr (hsigns w hw)) hcategory,
      .inr ⟨fun p hp => absurd hp.length_le (Nat.not_le_of_lt (Nat.lt_succ_self 2)), fun w hw hatom => ?_⟩⟩
    rw [hsigns w hw] at hatom
    cases hatom
  · have hl := Leaves.left hl.tail
    rw [if_neg hbare] at hl
    exact hl

theorem FunctionHeader.resultWoven (h : f.WellFormed) (hl : Leaves leaf f.resultWords) : Woven leaf f.resultCode := by
  have htype := h.result
  rw [FunctionHeader.resultWords] at hl
  rw [FunctionHeader.resultCode]
  cases hresult : f.result with
  | none => cases f.word <;> exact .glue rfl
  | some type =>
    rw [hresult] at hl htype
    exact type.woven (htype type rfl) hl.tail

/-- So is the code of a function header, whether bare or not. -/
theorem FunctionHeader.woven (h : f.WellFormed) (hl : Leaves leaf (f.words bare)) : Woven leaf f.code := by
  obtain ⟨hparameters, hresult⟩ := FunctionHeader.leaves_parameters hl
  have hname : Woven leaf f.name := hl.head (spells_of_eq h.name (by decide))
  have hqualifiers : Woven leaf f.qualifiers := by
    rw [FunctionHeader.qualifiers]
    split <;> exact .glue rfl
  have hletters : ∀ l ∈ f.typeParameters, Woven leaf l := by
    intro l hletter
    have hmem := (mem_filter.mp (mem_of_mem_firsts hletter)).1
    rcases mem_append.mp hmem with hmem | hmem
    · exact ParameterGroup.leaf_of_letter h.parameters hparameters l hmem
    · cases htype : f.result with
      | none => rw [htype] at hmem; cases hmem
      | some type =>
        rw [FunctionHeader.resultWords, htype] at hresult
        rw [htype] at hmem
        exact type.leaf_of_letter hresult.tail l hmem
  have hfront := Woven.append (Woven.append (Woven.append (Woven.append hqualifiers
    (FunctionHeader.resultWoven h hresult)) (.glue (g := " ") rfl)) hname)
    (parameterList_woven hletters)
  exact .enclosed .round hfront (ParameterGroup.listWoven h.parameters hparameters) rfl rfl

theorem UserTypeHeader.woven {u : UserTypeHeader} (h : u.WellFormed) (hl : Leaves leaf u.words) :
    Woven leaf u.code := by
  obtain ⟨word, name, parameters, parents⟩ := u
  have hname : Woven leaf name := hl.head (spells_of_eq h.name (by decide))
  have hword : Woven leaf word.text := by cases word <;> exact .glue rfl
  have hlparameters := Leaves.left hl.tail
  have hlparents := Leaves.right hl.tail
  refine .append (.append (.append (.append hword (.glue rfl)) hname) ?_) ?_
  · refine parameterList_woven fun l hletter => ?_
    have hcategory := spells_of_eq (h.parameters l hletter) (by decide)
    cases parameters with
    | nil => cases hletter
    | cons p ps => exact (Leaves.of_paren hlparameters).of_names l hletter hcategory
  · cases parents with
    | nil => exact .nil
    | cons parent parents =>
      refine .append (.glue rfl) (Woven.commaSeparated fun t ht => ?_)
      obtain ⟨type, htype, rfl⟩ := mem_map.mp ht
      exact type.woven (h.parents type htype) (hlparents.tail.of_comma _ (mem_map_of_mem htype))

/-! ## Statements and headers -/

theorem Target.woven {t : Target} (h : t.operand.WellFormed) (hl : Leaves leaf t.operand.words) : Woven leaf t.code :=
  .append (hl.head (spells_of_isAtom h.1)) (Accessor.allWoven _ h.2.1 hl.tail)

theorem ModulePath.mem_words {segment : Text} (h : segment ∈ path) : segment ∈ path.words := by
  fun_induction ModulePath.words path with
  | case1 => exact h
  | case2 => exact h
  | case3 first path _ ih =>
    rcases mem_cons.mp h with rfl | h
    · exact mem_cons_self
    · exact mem_cons_of_mem _ (mem_cons_of_mem _ (ih h))

theorem ModulePath.woven (h : ∀ segment ∈ path, Text.isWord segment) (hl : Leaves leaf path.words) :
    Woven leaf path.code := by
  refine Woven.join rfl fun segment hsegment => ?_
  exact hl.mem (mem_words hsegment) (spells_of_isWord (h segment hsegment))

theorem Simple.bodyWoven (h : s.WellFormed) (hl : Leaves leaf s.words) : Woven leaf s.body := by
  cases s with
  | pass => exact .enclose .curly .nil
  | result value =>
    cases value with
    | none => exact .glue rfl
    | some value => exact .append (.glue rfl) (value.woven h (hl.behindWord (.statement .returnWord) rfl rfl))
  | jump word => rcases h with rfl | rfl <;> exact .glue rfl
  | print arguments =>
    have harguments := Expr.allWoven arguments h (hl.behindWord (.statement .printWord) rfl rfl).of_comma
    exact .enclosed .round (.glue (g := "print") rfl) (.commaSeparated harguments) rfl rfl
  | assertion arguments =>
    have harguments := Expr.allWoven arguments h (hl.behindWord (.statement .assertWord) rfl rfl).of_comma
    exact .enclosed .round (.glue (g := "assert") rfl) (.commaSeparated harguments) rfl rfl
  | throwNew name arguments =>
    obtain ⟨hname, harguments⟩ := h
    have hhead : Woven leaf name := hl.tail.head (spells_of_eq hname (by decide))
    have harguments := Expr.allWoven arguments harguments (Leaves.of_paren hl.tail.tail).of_comma
    exact .enclosed .round (.append (.glue (g := "throw new ") rfl) hhead)
      (.commaSeparated harguments) rfl rfl
  | throwValue value => exact .append (.glue rfl) (value.woven h (hl.behindWord (.exceptionWord .raiseWord) rfl rfl))
  | modules paths =>
    refine .append (.glue rfl) (Woven.commaSeparated fun t ht => ?_)
    obtain ⟨path, hpath, rfl⟩ := mem_map.mp ht
    have hlpaths := (hl.behindWord (.libraryWord .importWord) rfl rfl).of_comma
    exact ModulePath.woven (h path hpath) (hlpaths _ (mem_map_of_mem hpath)).leaves
  | symbols path names =>
    obtain ⟨hpath, hnames⟩ := h
    have hlpath : Leaves leaf (path.words ++ ("import" : Text) :: nameWords names) := hl.tail
    refine .append (.append (.append (.glue rfl) (ModulePath.woven hpath hlpath.left)) (.glue rfl))
      (Woven.commaSeparated fun name hname => ?_)
    have hlnames := hlpath.right.behindWord (.libraryWord .importWord) rfl rfl
    exact hlnames.of_names name hname (spells_of_isWord (hnames name hname))
  | constant name value =>
    obtain ⟨hname, hvalue⟩ := h
    have hhead : Woven leaf name := hl.head (spells_of_eq hname (by decide))
    exact .append (.append (.append (.glue rfl) hhead) (.glue rfl))
      (value.woven hvalue (hl.tail.behind (endsOperand_keyword Lexeme.ofText_equals rfl)))
  | declaration type bindings =>
    obtain ⟨htype, -, hbindings⟩ := h
    have hl : Leaves leaf (type.words ++ commaWords (bindings.map Binding.words)) := hl
    refine .append (.append (type.woven htype hl.left) (.glue rfl))
      (Woven.commaSeparated fun t ht => ?_)
    obtain ⟨b, hb, rfl⟩ := mem_map.mp ht
    exact Binding.woven (hbindings b hb) (hl.right.of_comma _ (mem_map_of_mem hb))
  | assignment target operator value =>
    obtain ⟨htarget, hoperator, hvalue⟩ := h
    have hl : Leaves leaf (target.operand.words ++ operator :: value.words) := hl
    have hop : Woven leaf operator := hl.right.head (spells_of_eq hoperator (by decide))
    exact .append (.append (.append (.append (Target.woven htarget hl.left) (.glue rfl)) hop)
      (.glue rfl)) (value.woven hvalue (hl.right.behind (endsOperand_assignment hoperator)))
  | call target => exact Target.woven h hl

/-- So is the code of a statement. -/
theorem Simple.woven (h : s.WellFormed) (hl : Leaves leaf s.words) : Woven leaf s.code := by
  unfold Simple.code
  split
  · exact Simple.bodyWoven h hl
  · exact .append (Simple.bodyWoven h hl) (.glue rfl)

/-- So is the code of a header. -/
theorem Header.woven {header : Header} (h : header.WellFormed) (hl : Leaves leaf (header.words bare)) :
    Woven leaf header.code := by
  cases header with
  | ifThen condition =>
    have hcondition := condition.woven h (hl.behindWord (.conditional .ifWord) rfl rfl)
    exact .enclosed .round (.glue (g := "if ") rfl) hcondition rfl rfl
  | elseIf condition =>
    have hcondition := condition.woven h (hl.tail.behindWord (.conditional .ifWord) rfl rfl)
    exact .enclosed .round (.glue (g := "else if ") rfl) hcondition rfl rfl
  | otherwise => exact .glue rfl
  | whileLoop condition =>
    have hcondition := condition.woven h (hl.behindWord (.statement .whileWord) rfl rfl)
    exact .enclosed .round (.glue (g := "while ") rfl) hcondition rfl rfl
  | forEach names sequence =>
    obtain ⟨hnames, hsequence⟩ := h
    have hlnames : StartLeaves leaf (nameWords names ++ ("in" : Text) :: sequence.words) :=
      hl.behindWord (.statement .forWord) rfl rfl
    have hlsequence := hlnames.leaves.right.behindWord (.comparator .member) rfl rfl
    have hnames : ∀ name ∈ names, Woven leaf name := fun name hname =>
      hlnames.left.of_names name hname (spells_of_eq (hnames name hname) (by decide))
    rw [code, append_assoc (ofString "foreach ("),
      append_assoc (ofString "foreach (")]
    exact .enclosed .round (.glue (g := "foreach ") rfl) (.append (.append (.commaSeparated hnames)
      (.glue rfl)) (sequence.woven hsequence hlsequence)) rfl rfl
  | switchOn subject =>
    have hsubject := subject.woven h (hl.behindWord (.conditional .switchWord) rfl rfl)
    exact .enclosed .round (.glue (g := "switch ") rfl) hsubject rfl rfl
  | attempt => exact .glue rfl
  | catching type name =>
    obtain ⟨htype, hname⟩ := h
    have htypeWoven := type.woven htype (Leaves.left hl.tail)
    cases name with
    | none => exact .enclosed .round (.glue (g := "catch ") rfl) htypeWoven rfl rfl
    | some name =>
      have hhead : Woven leaf name :=
        (Leaves.right hl.tail).head (spells_of_eq (hname name rfl) (by decide))
      rw [code, append_assoc (ofString "catch ("),
        append_assoc (ofString "catch (")]
      exact .enclosed .round (.glue (g := "catch ") rfl)
        (.append (.append htypeWoven (.glue rfl)) hhead) rfl rfl
  | always => exact .glue rfl
  | unittest => exact .glue rfl
  | constructing parameters =>
    have hparameters := ParameterGroup.listWoven h hl.tail
    exact .enclosed .round (.glue (g := "this") rfl) hparameters rfl rfl
  | function header => exact FunctionHeader.woven h hl.tail
  | userType header => exact UserTypeHeader.woven h hl.tail
  | attributes word => exact hl.head (spells_of_eq h (by decide))

/-- So is the code of a label. -/
theorem Label.woven {label : Label} (h : label.WellFormed) (hl : Leaves leaf label.words) :
    Woven leaf label.code := by
  cases label with
  | values vs =>
    have hlvalues := hl.behindWord (.conditional .caseWord) rfl rfl
    exact .append (.glue rfl) (.commaSeparated (Expr.allWoven vs h hlvalues.of_comma))
  | fallback => exact .glue rfl

end

end Offside
