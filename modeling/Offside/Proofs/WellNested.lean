/-
Brackets in the body of a source.

If no literal and no raw text has a bracket then the body is well-nested: after every clause the
open braces are those of the scopes (`Tag.openBraces`).
-/
import Offside.Proofs.Accepted

set_option autoImplicit false

namespace Offside

open List Text

/-! ## Texts without brackets -/

variable {t : Text} {tags tags' : List Tag}

namespace Text

def Unbracketed (t : Text) : Prop := ∀ b ∈ t, isBracket b = false

theorem unbracketed_of_glue (h : t.all isGlue) : Unbracketed t := by
  intro b hb
  have hglue := all_eq_true.mp h b hb
  rw [isGlue, Bool.and_eq_true, Bool.and_eq_true, Bool.not_eq_true'] at hglue
  exact hglue.1.1

theorem Unbracketed.balanced (h : Unbracketed t) : Balanced t := balanced_of_no_bracket h

theorem nesting_trans {a b c : List Bracket} {s : Text} (hs : nesting a s = some b) (ht : nesting b t = some c) :
    nesting a (s ++ t) = some c := by
  rw [nesting_append, hs]
  exact ht

end Text

open Text (Unbracketed Balanced nesting nesting_trans)

def Token.Unbracketed (t : Token) : Prop :=
  t.raw ∨ t.category ≠ .punctuation → Text.Unbracketed t.text

theorem Token.Codes.leaves {ts : List Token} {words : List Text} (h : Token.Codes ts words)
    (hts : ∀ t ∈ ts, t.Unbracketed) : Leaves Text.Unbracketed words := by
  obtain ⟨rfl, hcode⟩ := h
  have hsigns : ∀ b ∈ (("--" : String) : Text), Text.isBracket b = false := fun b hb => by
    simpa using all_eq_true.mp (show ((("--" : String) : Text).all fun b => !Text.isBracket b) = true from rfl) b hb
  refine ⟨fun w hw hcategory => ?_, .inl hsigns⟩
  obtain ⟨t, ht, rfl⟩ := mem_map.mp hw
  refine hts t ht (.inr ?_)
  rw [Token.category_eq (hcode t ht).raw]
  exact hcategory

variable {tag : Tag} {lines : List Text}

section

variable {unit : Text} {ts : List Token}

theorem balanced_lineBreak (hunit : Unbracketed unit) (level : Int) :
    Balanced ((Piece.lineBreak level).render unit) := by
  refine Unbracketed.balanced fun b hb => ?_
  rcases mem_append.mp hb with hb | hb
  · obtain rfl := mem_singleton.mp hb
    rfl
  · obtain ⟨u, hu, hb⟩ := mem_flatten.mp hb
    rw [eq_of_mem_replicate hu] at hb
    exact hunit b hb

theorem LineComment.Written.balanced (unit : Text) {c : LineComment} (h : c.Written ts)
    (hts : ∀ t ∈ ts, t.Unbracketed) : Balanced (c.fragment.render unit) := by
  have hsign : Text.Unbracketed c.sign := by
    rw [LineComment.sign]
    split <;> exact unbracketed_of_glue rfl
  have htext : Text.Unbracketed c.text := by
    cases h with
    | bare => exact fun _ hb => nomatch hb
    | @text sign t hsign ht => exact hts t (by simp) (.inl ht)
  rw [LineComment.fragment]
  split
  · simpa [Piece.render] using hsign.balanced
  · have hspace : Text.Unbracketed (c.sign ++ " ") :=
      forall_mem_append.mpr ⟨hsign, unbracketed_of_glue rfl⟩
    simpa [Piece.render] using hspace.balanced.append htext.balanced

theorem LineComment.WrittenAfter.balanced (unit : Text) {comment : Option LineComment}
    (h : LineComment.WrittenAfter comment ts) (hts : ∀ t ∈ ts, t.Unbracketed) :
    Balanced (Fragment.render unit (LineComment.trailing comment)) := by
  cases comment with
  | none => exact fun _ => rfl
  | some c =>
    have hspace : Text.Unbracketed (" " : String) := unbracketed_of_glue rfl
    exact hspace.balanced.append (LineComment.Written.balanced unit h hts)

/-! ## Clauses -/

def Tag.openBraces (tags : List Tag) : List Bracket :=
  tags.flatMap fun tag => if tag = .caseBody then [] else [.curly]

open Tag (openBraces)

theorem openBraces_caseBody (tags : List Tag) : openBraces (.caseBody :: tags) = openBraces tags := rfl

theorem openBraces_cons (h : tag ≠ .caseBody) (tags : List Tag) :
    openBraces (tag :: tags) = .curly :: openBraces tags := by
  rw [openBraces, flatMap_cons, if_neg h]
  rfl

/-- The end of a block closes its brace. -/
theorem Closing.Closes.nesting {t : Token} {c : Closing} (h : c.Closes tag t) (hunit : Unbracketed unit)
    (tags : List Tag) : nesting (openBraces (tag :: tags)) (c.fragment.render unit) = some (openBraces tags) := by
  cases c with
  | block level =>
    rw [openBraces_cons h.1]
    refine nesting_trans (balanced_lineBreak hunit level _) ?_
    exact nesting_closing (openBraces tags) .curly []
  | caseBody needsBreak level =>
    obtain ⟨rfl, -⟩ := h
    rw [openBraces_caseBody]
    cases needsBreak with
    | true =>
      have hbreak : Text.Unbracketed ("break;" : String) := unbracketed_of_glue rfl
      exact nesting_trans (balanced_lineBreak hunit _ _) (hbreak.balanced _)
    | false => rfl

theorem Ending.Written.nesting {e : Ending} (h : e.Written tags ts tags') (hunit : Unbracketed unit) :
    nesting (openBraces tags) (e.fragment.render unit) = some (openBraces tags') := by
  cases h with
  | input => rfl
  | line tags ht => exact nesting_trans (balanced_lineBreak hunit _ _) rfl
  | closing ht hc => exact hc.nesting hunit _

/-- A header leaves one brace open. -/
theorem nesting_header {code : Text} (h : Balanced code) (stack : List Bracket) :
    nesting stack (code ++ " \x7b") = some (.curly :: stack) := by
  refine nesting_trans (h stack) ?_
  exact nesting_trans (balanced_of_no_bracket (t := (" " : String))
    (unbracketed_of_glue rfl) stack) (nesting_opening stack .curly [])

theorem LabelLine.Written.balanced {l : LabelLine} {cs : List Token} {m : Token}
    (h : l.Written ts cs m) (hunit : Unbracketed unit) (hts : ∀ t ∈ ts, t.Unbracketed)
    (hcs : ∀ t ∈ cs, t.Unbracketed) : Balanced (l.fragment.render unit) := by
  have hleaves := (h.codes.leaves hts).left
  have hcode := (Label.woven h.wellFormed hleaves).balanced fun _ hw => hw
  have hcolon : Text.Unbracketed (":" : String) := unbracketed_of_glue rfl
  have hline := (hcode.append hcolon.balanced).append
    ((h.comment.balanced unit hcs).append (balanced_lineBreak hunit l.level))
  simpa [LabelLine.fragment, Piece.render] using hline

theorem LabelLine.AllWritten.balanced {lines : List LabelLine} (h : LabelLine.AllWritten lines ts)
    (hunit : Unbracketed unit) (hts : ∀ t ∈ ts, t.Unbracketed) :
    Balanced (Fragment.render unit (lines.flatMap LabelLine.fragment)) := by
  induction h with
  | last h hm =>
    simp only [forall_mem_append] at hts
    simpa using h.balanced hunit hts.1 hts.2.1
  | more h hm hls ih =>
    simp only [forall_mem_append, forall_mem_cons] at hts
    rw [flatMap_cons, Fragment.render_append]
    exact (h.balanced hunit hts.1 hts.2.1).append (ih hts.2.2.2)

theorem balanced_copied (piece : Text → Piece) (hpiece : ∀ line, (piece line).render unit = line) (level : Int)
    (hunit : Unbracketed unit) (hlines : ∀ line ∈ lines, Text.Unbracketed line) :
    Balanced (Fragment.render unit (lines.flatMap fun line => Clause.copiedLine level line piece)) := by
  induction lines with
  | nil => exact fun _ => rfl
  | cons line lines ih =>
    obtain ⟨hline, hlines⟩ := forall_mem_cons.mp hlines
    rw [flatMap_cons, Fragment.render_append]
    refine Balanced.append ?_ (ih hlines)
    rw [Clause.copiedLine]
    split
    · simpa using balanced_lineBreak hunit 0
    · simpa [hpiece] using (balanced_lineBreak hunit level).append hline.balanced

/-- After a clause the braces open are those of the scopes. -/
theorem Clause.Written.nesting {c : Clause} (h : c.Written tags ts tags') (hunit : Unbracketed unit)
    (hts : ∀ t ∈ ts, t.Unbracketed) : nesting (openBraces tags) (c.render unit) = some (openBraces tags') := by
  have hclosed : ∀ {text : Text}, text.all isGlue → Balanced text :=
    fun h => (unbracketed_of_glue h).balanced
  induction h with
  | start => rfl
  | newline tags ht => exact nesting_trans (balanced_lineBreak hunit _ _) rfl
  | dedent ht hc => exact hc.nesting hunit _
  | lineComment tags h => exact h.balanced unit hts _
  | @blockComment tags sign t lines ts hsign ht h =>
    simp only [forall_mem_cons] at hts
    have hlines := h.forall_line fun t ht hraw => hts.2.2 t ht (.inl hraw)
    have hopen : Balanced (if sign.text == "#." then "/**" else "/*" : Text) := by
      split <;> exact hclosed rfl
    have hcopied := balanced_copied .comment (fun _ => rfl) (sign.level + 1) hunit hlines
    have hclose : Balanced ("*/" : String) := hclosed rfl
    have hall := (hopen.append hcopied).append ((balanced_lineBreak hunit sign.level).append hclose)
    simpa [Clause.render, Clause.fragment, Piece.render] using hall (openBraces tags)
  | @passthrough tags openers opener t lines ts hopener hopeners ht h =>
    simp only [forall_mem_append, forall_mem_cons] at hts
    have hlines := h.forall_line fun t ht hraw => hts.2.2.2 t ht (.inl hraw)
    cases lines with
    | nil => rfl
    | cons line lines =>
      obtain ⟨hline, hlines⟩ := forall_mem_cons.mp hlines
      have hcopied := balanced_copied .verbatim (fun _ => rfl) opener.level hunit hlines
      exact hline.balanced.append hcopied _
  | @simple tags tags' s comment e ts cs es hcodes hs hcomment he =>
    simp only [forall_mem_append] at hts
    have hcode := (Simple.woven hs (hcodes.leaves hts.1)).balanced fun _ hw => hw
    have hline := nesting_trans ((hcode.append (hcomment.balanced unit hts.2.1)) _)
      (he.nesting hunit)
    simpa [Clause.render, Clause.fragment, Piece.render] using hline
  | @block tags header comment bare ts cs t hcodes hheader hcomment ht =>
    simp only [forall_mem_append] at hts
    have hleaves := (hcodes.leaves hts.1).left
    have hcode := (Header.woven hheader hleaves).balanced fun _ hw => hw
    -- The brace of the header stays open, and the tag counts it.
    rw [openBraces_cons header.tag_ne_caseBody]
    have hline := nesting_trans (nesting_header hcode (openBraces tags))
      (((hcomment.balanced unit hts.2.1).append (balanced_lineBreak hunit t.level)) _)
    simpa [Clause.render, Clause.fragment, Piece.render] using hline
  | labels tags h => exact h.balanced hunit hts _
  | @attributed tags tags' t c ts ht hcategory hfirst h ih =>
    obtain ⟨hword, hrest⟩ := forall_mem_cons.mp hts
    have hword : Text.Unbracketed t.text := by
      refine hword (.inr ?_)
      rw [Token.category_eq ht.raw, hcategory]
      decide
    have hspace : Balanced (" " : String) := hclosed rfl
    have hfront := hword.balanced.append hspace
    exact nesting_trans (hfront _) (ih hrest)

/-- So it is after all clauses. -/
theorem Clause.AllWritten.nesting {cs : List Clause} (h : Clause.AllWritten tags cs ts tags')
    (hunit : Unbracketed unit) (hts : ∀ t ∈ ts, t.Unbracketed) :
    nesting (openBraces tags) (cs.map (Clause.render unit)).flatten = some (openBraces tags') := by
  induction h with
  | nil => rfl
  | cons hc _ hcs ih =>
    obtain ⟨hts, hus⟩ := forall_mem_append.mp hts
    rw [map_cons, flatten_cons]
    exact nesting_trans (hc.nesting hunit hts) (ih hus)

end

/-! ## Sources -/

/-- Only literals and raw texts can have brackets in them. -/
theorem unbracketed_of_scan {unit source : Text} {scanned : Scanned}
    (hscan : (scan unit source).outcome = .ok scanned)
    (hliterals : ∀ t ∈ scanned.tokens, t.raw ∨ t.category = .stringLiteral ∨
      t.category = .characterLiteral → Text.Unbracketed t.text) :
    ∀ t ∈ scanned.tokens, t.Unbracketed := by
  obtain ⟨rows, htokens, hlaid, hspelled⟩ := scan_spelled hscan
  have hmarkers : ∀ m : Marker, Text.Unbracketed m.text := by
    intro m
    cases m <;> exact unbracketed_of_glue rfl
  intro t ht hcode
  rw [htokens] at ht
  obtain hmarker | ⟨row, hrow, ht'⟩ := Row.mem_allTokens ht
  · obtain ⟨m, hm⟩ := Token.isMarker_iff.mp hmarker
    rw [(Token.is_iff.mp hm).2]
    exact hmarkers m
  rw [← htokens] at ht
  by_cases hraw : t.raw
  · exact hliterals t ht (.inl hraw)
  rw [Bool.not_eq_true] at hraw
  intro b hb
  rw [Bool.eq_false_iff]
  intro hbracket
  have hno : ∀ {c : Category}, t.category = c → (c = .stringLiteral ∨ c = .characterLiteral) → False := by
    rintro c rfl hliteral
    rw [hliterals t ht (.inr hliteral) b hb] at hbracket
    cases hbracket
  rcases (hspelled row hrow).bracket t ht' hraw b hb hbracket with hcategory | hcategory | hcategory
  · exact hno hcategory (.inl rfl)
  · exact hno hcategory (.inr rfl)
  · rw [hraw, hcategory] at hcode
    rcases hcode with h | h
    · cases h
    · exact h rfl

/-- If no literal and no raw text of an accepted source has a bracket, then its body is well-nested.
A unit that is given is written out as it is, so it must have no bracket either. The empty one, for
which the source decides, has none. -/
theorem wellNested_body {unit source : Text} {scanned : Scanned} {h : History}
    (hunit : Text.Unbracketed unit) (hscan : (scan unit source).outcome = .ok scanned)
    (hliterals : ∀ t ∈ scanned.tokens, t.raw = true ∨ t.category = .stringLiteral ∨
      t.category = .characterLiteral → Text.Unbracketed t.text)
    (haccepts : SourceHistory.Accepts unit source h) : Text.WellNested h.body := by
  obtain ⟨_, hscan', hunit', hwritten⟩ := haccepts.written
  obtain rfl := Except.ok.inj (hscan.symm.trans hscan')
  have hunbracketed : Text.Unbracketed h.unit := by
    rw [hunit']
    rcases scan_unit hscan with hgiven | hfound
    · rw [hgiven]
      exact hunit
    · exact fun b hb => Word.isBracket_of_isIndent (hfound b hb)
  exact hwritten.nesting hunbracketed (unbracketed_of_scan hscan hliterals)

/-- All kinds of brackets, a case body, and a literal without them. -/
theorem wellNested_body_switch :
    ∃ h, SourceHistory.Accepts [] ("switch f(a[0]):\n  case 1:\n    b = \"x\"\n" : String) h ∧
      h.body = ("switch (f(a[0])) \x7b\n  case 1:\n    b = \"x\";\n    break;\n\x7d\n" : String) ∧
      Text.WellNested h.body := by
  obtain ⟨h, haccepts, hbody⟩ := SourceHistory.accepts_of_run []
    ("switch f(a[0]):\n  case 1:\n    b = \"x\"\n" : String)
    ("switch (f(a[0])) \x7b\n  case 1:\n    b = \"x\";\n    break;\n\x7d\n" : String)
    (by decide +kernel)
  have hliterals : ((scan [] ("switch f(a[0]):\n  case 1:\n    b = \"x\"\n"
      : String)).outcome.toOption.map fun scanned => scanned.tokens.all fun t =>
        !(t.raw || t.category = .stringLiteral || t.category = .characterLiteral) ||
          t.text.all fun b => !Text.isBracket b) = some true := by
    decide +kernel
  obtain ⟨scanned, hscan, -⟩ := SourceHistory.history_eq haccepts.1
  rw [hscan] at hliterals
  have hunit : Text.Unbracketed [] := fun _ hb => nomatch hb
  refine ⟨h, haccepts, hbody, wellNested_body hunit hscan ?_ haccepts⟩
  intro t ht hliteral b hb
  have hall := all_eq_true.mp (Option.some.inj hliterals) t ht
  simp only [Bool.or_eq_true, Bool.not_eq_true', Bool.or_eq_false_iff,
    decide_eq_false_iff_not, all_eq_true] at hall
  rcases hall with ⟨⟨hraw, hstring⟩, hcharacter⟩ | hall
  · rcases hliteral with h | h | h
    · rw [hraw] at h
      cases h
    · exact absurd h hstring
    · exact absurd h hcharacter
  · exact hall b hb

end Offside
