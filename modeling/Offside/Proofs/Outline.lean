/-
The outline of a token list.

`Outline` reads off the markers which lines a line stands below, and which line came before it in
its block, without any knowledge of the grammar.
-/
import Offside.Proofs.Accepted
import Offside.Proofs.Spelling.Lined
import Offside.Proofs.Translate.Context

set_option autoImplicit false

namespace Offside

open List Token Translate

theorem Token.not_isCode_of_isMarker {t : Token} (h : t.isMarker) : ¬ t.IsCode :=
  fun hcode => by rw [hcode.marker] at h; cases h

theorem Token.not_isCode_of_is {t : Token} {m : Marker} (h : t.is m.text) : ¬ t.IsCode :=
  not_isCode_of_isMarker (isMarker_of_mark h)

/-! ## Outlines -/

/-- What is known about the lines so far. -/
structure Outline where
  /-- The line that is being read. -/
  line : List Token := []
  /-- The line of code before it in the same block. -/
  last : Option (List Token) := none
  /-- The lines that it stands below, the innermost first. -/
  above : List (List Token) := []

variable {tag : Tag} {o : Outline} {s : Session} {tags tags' : List Tag} {words : List Text} {cs line : List Token}
  {comment : Option LineComment}

namespace Outline

def code? (line : List Token) : Option (List Token) :=
  if line.head?.any (fun t => !t.isCommentSign) then some line else none

def read (o : Outline) (t : Token) : Outline :=
  if t.is Marker.newline.text then { o with line := [], last := code? o.line <|> o.last }
  else if t.is Marker.indent.text then { above := o.line :: o.above }
  else if t.is Marker.dedent.text then { last := o.above.head?.bind code?, above := o.above.tail }
  else if t.is Marker.begin.text then { o with line := [] }
  else { o with line := o.line ++ [t] }

def run (o : Outline) (ts : List Token) : Outline := ts.foldl read o

variable {o : Outline} {t : Token} {ts us : List Token}

@[simp] theorem run_nil (o : Outline) : o.run [] = o := rfl

@[simp] theorem run_cons (o : Outline) (t : Token) (ts : List Token) : o.run (t :: ts) = (o.read t).run ts := rfl

/-- Reading goes from left to right. -/
@[simp] theorem run_append (o : Outline) (ts us : List Token) :
    o.run (ts ++ us) = (o.run ts).run us := foldl_append

theorem read_newline (h : t.is Marker.newline.text) (o : Outline) :
    o.read t = { o with line := [], last := code? o.line <|> o.last } := by
  rw [read, if_pos h]

theorem read_indent (h : t.is Marker.indent.text) (o : Outline) :
    o.read t = { above := o.line :: o.above } := by
  simp [read, h, is_eq_false_of_is h (b := .newline) (by decide)]

theorem read_dedent (h : t.is Marker.dedent.text) (o : Outline) :
    o.read t = { last := o.above.head?.bind code?, above := o.above.tail } := by
  simp [read, h, is_eq_false_of_is h (b := .newline) (by decide),
    is_eq_false_of_is h (b := .indent) (by decide)]

theorem read_begin (h : t.is Marker.begin.text) (o : Outline) : o.read t = { o with line := [] } := by
  simp [read, h, is_eq_false_of_is h (b := .newline) (by decide),
    is_eq_false_of_is h (b := .indent) (by decide),
    is_eq_false_of_is h (b := .dedent) (by decide)]

theorem read_plain (h : t.isMarker = false) (o : Outline) : o.read t = { o with line := o.line ++ [t] } := by
  have hne := is_eq_false_of_isMarker h
  simp [read, hne]

theorem run_plain (h : ∀ t ∈ ts, t.isMarker = false) (o : Outline) : o.run ts = { o with line := o.line ++ ts } := by
  induction ts generalizing o with
  | nil => simp
  | cons t ts ih =>
    obtain ⟨ht, hts⟩ := forall_mem_cons.mp h
    rw [run_cons, read_plain ht, ih hts]
    simp

theorem code?_cons (t : Token) (ts : List Token) :
    code? (t :: ts) = if t.isCommentSign then none else some (t :: ts) := by
  cases h : t.isCommentSign <;> simp [code?, h]

/-! ## Scopes and the lines that opened them -/

/-- The line opens a block with this tag. -/
inductive Opens : List Token → Tag → Prop
  | header {attributes code comment : List Token} {header : Header} {bare : Bool}
      (hattributes : ∀ t ∈ attributes, t.category = .attributeWord)
      (hcodes : Codes code (header.words bare ++ [(":" : Text)])) :
    Opens (attributes ++ (code ++ comment)) header.tag
  | label (line : List Token) : Opens line .caseBody

theorem isCommentSign_of_attribute (h : t.category = .attributeWord) : t.isCommentSign = false := by
  rw [Bool.eq_false_iff]
  intro hsign
  rw [category, lexeme_of_isCommentSign hsign] at h
  cases h

/-- A line that opens a block is code, unless it is a label. -/
theorem Opens.code? (h : Opens line tag) (htag : tag ≠ .caseBody) : code? line = some line := by
  cases h with
  | label => exact absurd rfl htag
  | @header attributes code comment header bare hattributes hcodes =>
    cases attributes with
    | cons t attributes =>
      have hsign := isCommentSign_of_attribute (hattributes t mem_cons_self)
      simp [code?_cons, hsign]
    | nil =>
      cases code with
      | nil => exact absurd hcodes.1.symm (by simp)
      | cons t code =>
        have hsign := (hcodes.2 t mem_cons_self).sign
        simp [code?_cons, hsign]

/-- The open scopes were opened by the lines above. A scope that can be continued was opened by the
line before, and nothing but a comment has come since. -/
structure Opened (o : Outline) (sc : Scopes Tag) : Prop where
  above : Forall₂ Opens o.above sc.tags
  last : ∀ tag ∈ Tag.continued, sc.previous = some tag →
    code? o.line = none ∧ ∃ line ∈ o.last, Opens line tag

variable {o' : Outline} {sc sc' : Scopes Tag}

theorem Opened.forget (h : o.Opened sc) (habove : o'.above = o.above) : o'.Opened sc.forget where
  above := by rw [habove]; exact h.above
  last := fun _ _ hprevious => nomatch hprevious

/-! ## Words at their place -/

/-- Each word that comes first behind the attributes of its line is admitted by scopes that the
lines above have opened. -/
def Placed : Outline → List Token → Prop
  | _, [] => True
  | o, t :: ts =>
    (t.IsCode → (∀ u ∈ o.line, u.category = .attributeWord) →
      ∃ sc, o.Opened sc ∧ sc.Admits t.lexeme) ∧ Placed (o.read t) ts

/-- Tokens are placed if their parts are, one after the other. -/
theorem placed_append : o.Placed (ts ++ us) ↔ o.Placed ts ∧ (o.run ts).Placed us := by
  induction ts generalizing o with
  | nil => simp [Placed]
  | cons t ts ih => rw [cons_append, Placed, Placed, ih, run_cons, and_assoc]

theorem placed_of_not_isCode (h : ∀ t ∈ ts, ¬ t.IsCode) (o : Outline) : o.Placed ts := by
  induction ts generalizing o with
  | nil => trivial
  | cons t ts ih =>
    obtain ⟨ht, hts⟩ := forall_mem_cons.mp h
    exact ⟨fun hcode => absurd hcode ht, ih hts _⟩

theorem placed_marker {m : Marker} (h : t.is m.text) (o : Outline) : o.Placed [t] :=
  placed_of_not_isCode (by simpa using not_isCode_of_is h) o

/-- Behind the first word of a line every word is placed. -/
theorem placed_behind {u : Token} (hu : u ∈ o.line) (hattribute : u.category ≠ .attributeWord)
    (hplain : ∀ t ∈ ts, t.isMarker = false) : o.Placed ts := by
  induction ts generalizing o with
  | nil => trivial
  | cons t ts ih =>
    obtain ⟨ht, hts⟩ := forall_mem_cons.mp hplain
    refine ⟨fun _ hall => absurd (hall u hu) hattribute, ?_⟩
    rw [read_plain ht]
    exact ih (mem_append_left _ hu) hts

/-- A word that the open scopes admit is placed. -/
theorem Opened.placed (h : o.Opened sc) (hline : ∀ u ∈ o.line, u.category = .attributeWord)
    (hleads : sc.Leads ts) (hplain : ∀ t ∈ ts, t.isMarker = false) : o.Placed ts := by
  induction ts generalizing o sc with
  | nil => trivial
  | cons t ts ih =>
    obtain ⟨ht, hts⟩ := forall_mem_cons.mp hplain
    by_cases hattribute : t.category = .attributeWord
    · refine ⟨fun _ _ => ⟨sc, h, ?_⟩, ?_⟩
      · rw [Lexeme.category_eq_attributeWord_iff.mp hattribute]
        trivial
      · rw [Scopes.leads_of_attribute hattribute] at hleads
        rw [read_plain ht]
        refine ih (h.forget rfl) ?_ hleads hts
        intro u hu
        rcases mem_append.mp hu with hu | hu
        · exact hline u hu
        · rw [mem_singleton.mp hu]
          exact hattribute
    · rw [Scopes.leads_of_admits _ hattribute] at hleads
      refine ⟨fun _ _ => ⟨sc, h, hleads⟩, ?_⟩
      rw [read_plain ht]
      exact placed_behind (mem_append_right _ (mem_singleton_self t)) hattribute hts

theorem Opened.placed_line (h : o.Opened sc) (hline : ∀ u ∈ o.line, u.category = .attributeWord)
    (hleads : sc.Leads ts) (hplain : ∀ t ∈ ts, t.isMarker = false)
    (hus : Placed { o with line := o.line ++ ts } us) : o.Placed (ts ++ us) := by
  rw [placed_append, run_plain hplain]
  exact ⟨h.placed hline hleads hplain, hus⟩

theorem run_line (hplain : ∀ t ∈ ts, t.isMarker = false) (o : Outline) (us : List Token) :
    o.run (ts ++ us) = Outline.run { o with line := o.line ++ ts } us := by
  rw [run_append, run_plain hplain]

end Outline

/-! ## One clause -/

variable {t : Token} {c : Clause} {lines : List LabelLine}

section

open Outline

variable {o : Outline} {sc sc' : Scopes Tag} {ts us : List Token}

theorem Token.Codes.plain_append (hcodes : Codes ts words) (hcomment : LineComment.WrittenAfter comment cs) :
    ∀ t ∈ ts ++ cs, t.isMarker = false :=
  forall_mem_append.mpr ⟨hcodes.plain, hcomment.plain⟩

theorem Scopes.Continues.previous (h : sc.Continues c sc') (hlength : sc.tags.length ≤ sc'.tags.length)
    (htag : tag ∈ Tag.continued) (hprevious : sc'.previous = some tag) :
    c.isQuiet ∧ sc.previous = some tag := by
  rcases h tag htag hprevious with hquiet | htags
  · exact hquiet
  · have hlengths := congrArg List.length htags
    rw [length_cons] at hlengths
    omega

theorem Scopes.Continues.previous_ne (h : sc.Continues c sc') (hquiet : c.isQuiet = false)
    (hlength : sc.tags.length ≤ sc'.tags.length) : ∀ tag ∈ Tag.continued, sc'.previous ≠ some tag := by
  intro tag htag hprevious
  have hc := (h.previous hlength htag hprevious).1
  rw [hquiet] at hc
  cases hc

theorem Outline.opened_of_previous_ne (habove : Forall₂ Opens o.above sc.tags)
    (hprevious : ∀ tag ∈ Tag.continued, sc.previous ≠ some tag) : o.Opened sc :=
  ⟨habove, fun tag htag h => absurd h (hprevious tag htag)⟩

/-- What the clause says of the scope closed last, by what it makes of the tags. -/
theorem Outline.Opened.quiet {o' : Outline} (h : o.Opened sc) (hcontinues : sc.Continues c sc')
    (htags : sc'.tags = sc.tags) (habove : o'.above = o.above)
    (hlast : code? o.line = none → code? o'.line = none ∧ o'.last = o.last) : o'.Opened sc' where
  above := by rw [habove, htags]; exact h.above
  last := by
    intro tag htag hprevious
    have hbefore := (hcontinues.previous (by rw [htags]) htag hprevious).2
    obtain ⟨hcomment, hopens⟩ := h.last tag htag hbefore
    obtain ⟨hline, hsame⟩ := hlast hcomment
    rw [hsame]
    exact ⟨hline, hopens⟩

/-- A line that opens nothing keeps the scopes and the outline in step. -/
theorem Outline.Opened.behind {o' : Outline} (h : o.Opened sc) (hcontinues : sc.Continues c sc')
    (hquiet : c.isQuiet = false) (htags : sc'.tags = sc.tags) (habove : o'.above = o.above) : o'.Opened sc' :=
  opened_of_previous_ne (by rw [habove, htags]; exact h.above) (hcontinues.previous_ne hquiet (by rw [htags]))

/-- So does the end of a block. -/
theorem Outline.Opened.closed (h : o.Opened sc) (hcontinues : sc.Continues c sc') (hquiet : c.isQuiet = false)
    (htags : sc.tags = tag :: sc'.tags) :
    Opened { last := o.above.head?.bind code?, above := o.above.tail } sc' := by
  have habove := h.above
  rw [htags] at habove
  obtain ⟨line, above, hline, hrest, hcons⟩ := forall₂_cons_right_iff.mp habove
  rw [hcons]
  refine ⟨hrest, fun top htop hprevious => ?_⟩
  obtain rfl : top = tag := by
    rcases hcontinues top htop hprevious with ⟨hc, -⟩ | hsplit
    · rw [hquiet] at hc
      cases hc
    · exact (cons.inj (hsplit.symm.trans htags)).1
  exact ⟨rfl, line, hline.code? (by rintro rfl; revert htop; decide), hline⟩

theorem RawWritten.run {lines : List Text} (h : RawWritten lines ts) (o : Outline) :
    (o.run ts).above = o.above.tail ∧ (o.run ts).line = [] := by
  induction h generalizing o with
  | close ht => simp [read_dedent ht]
  | line ht _ ih =>
    rw [run_cons, read_plain (isMarker_of_raw ht)]
    exact ih _
  | newline ht _ ih =>
    rw [run_cons, read_newline ht]
    exact ih _

theorem RawWritten.not_isCode {lines : List Text} (h : RawWritten lines ts) : ∀ t ∈ ts, ¬ t.IsCode := by
  intro t ht hcode
  rcases h.mem t ht with hraw | hmarker
  · rw [hcode.raw] at hraw
    cases hraw
  · exact not_isCode_of_isMarker hmarker hcode

theorem LabelLine.Written.exists_head {l : LabelLine} {m : Token} (h : l.Written ts cs m) :
    ∃ t us, ts = t :: us ∧ t.raw = false ∧ (t.text = "case" ∨ t.text = "default") := by
  obtain ⟨hwords, hcode⟩ := h.codes
  cases ts with
  | nil => cases hlabel : l.label <;> rw [hlabel] at hwords <;> cases hwords
  | cons t us =>
    refine ⟨t, us, rfl, (hcode t mem_cons_self).raw, ?_⟩
    cases hlabel : l.label with
    | values vs =>
      rw [hlabel] at hwords
      exact .inl (cons.inj hwords).1
    | fallback =>
      rw [hlabel] at hwords
      exact .inr (cons.inj hwords).1

theorem LabelLine.Written.leads_iff {l : LabelLine} {m : Token} (h : l.Written ts cs m) (us : List Token) :
    sc.Leads (ts ++ us) ↔ sc.top? = some .switchBlock := by
  obtain ⟨t, ts, rfl, hraw, htext⟩ := h.exists_head
  obtain ⟨w, hw, hlexeme⟩ : ∃ w, (w = Conditional.caseWord ∨ w = .defaultWord) ∧
      t.lexeme = .keyword (.conditional w) := by
    rw [lexeme_eq hraw]
    rcases htext with htext | htext
    · exact ⟨_, .inl rfl, by rw [htext]; exact Lexeme.ofText_text rfl⟩
    · exact ⟨_, .inr rfl, by rw [htext]; exact Lexeme.ofText_text rfl⟩
  rw [cons_append, Scopes.leads_of_admits _ (by rw [category, hlexeme]; cases w <;> decide), hlexeme]
  rcases hw with rfl | rfl <;> rfl

theorem LabelLine.AllWritten.head (h : LabelLine.AllWritten lines ts) :
    ∃ l line cs m rest, ts = line ++ rest ∧ LabelLine.Written l line cs m := by
  cases h with
  | last h _ | more h _ _ => exact ⟨_, _, _, _, _, rfl, h⟩

/-- Labels end with the line that opens their body. -/
theorem LabelLine.AllWritten.run (h : LabelLine.AllWritten lines ts) (o : Outline) :
    ∃ line, o.run ts = { above := line :: o.above } := by
  induction h generalizing o with
  | last h hm =>
    rw [← append_assoc, run_line (h.codes.plain_append h.comment), run_cons, run_nil, read_indent hm]
    exact ⟨_, rfl⟩
  | more h hm _ ih =>
    rw [← append_assoc, run_line (h.codes.plain_append h.comment), run_cons, read_newline hm]
    exact ih _

theorem LabelLine.AllWritten.placed (h : LabelLine.AllWritten lines ts) (hopened : o.Opened sc)
    (hline : ∀ u ∈ o.line, u.category = .attributeWord) (htop : sc.top? = some .switchBlock) : o.Placed ts := by
  induction h generalizing o sc with
  | @last l ts cs m h hm =>
    rw [← append_assoc]
    refine hopened.placed_line hline ((h.leads_iff cs).mpr htop) (h.codes.plain_append h.comment) ?_
    exact placed_marker hm _
  | @more l ls ts cs us m h hm hls ih =>
    rw [← append_assoc]
    refine hopened.placed_line hline ((h.leads_iff cs).mpr htop) (h.codes.plain_append h.comment) ?_
    refine ⟨fun hcode => absurd hcode (not_isCode_of_is hm), ?_⟩
    rw [read_newline hm]
    -- The next label stands in the same switch, with nothing to continue.
    have hnext : ∀ last, Opened { o with line := [], last := last } sc.forget :=
      fun _ => hopened.forget rfl
    exact ih (hnext _) (fun _ hu => nomatch hu) htop

theorem Outline.line_of_plain
    (h : (∀ u ∈ o.line, u.category = .attributeWord) ∨ ∀ t ∈ (ts ++ us).head?, t.isMarker) (hts : ts ≠ [])
    (hplain : ∀ t ∈ ts, t.isMarker = false) : ∀ u ∈ o.line, u.category = .attributeWord := by
  cases ts with
  | nil => exact absurd rfl hts
  | cons t ts =>
    refine h.resolve_right fun hmarker => ?_
    have ht := hmarker t rfl
    rw [hplain t mem_cons_self] at ht
    cases ht

theorem Outline.eq_nil_of_code? (h : ∀ u ∈ line, u.category = .attributeWord) (hcomment : code? line = none) :
    line = [] := by
  cases line with
  | nil => rfl
  | cons t line =>
    rw [code?_cons, isCommentSign_of_attribute (h t mem_cons_self)] at hcomment
    cases hcomment

theorem LineComment.Written.head {c : LineComment} (h : c.Written ts) :
    ∃ sign us, ts = sign :: us ∧ sign.isCommentSign := by
  cases h with
  | bare hsign | text hsign _ => exact ⟨_, _, rfl, hsign⟩

/-- The tokens of a clause are placed, and keep scopes and outline in step. -/
theorem Clause.Written.placed (h : c.Written tags ts tags') (htags : sc.tags = tags) (htags' : sc'.tags = tags')
    (hopened : o.Opened sc) (hline : (∀ u ∈ o.line, u.category = .attributeWord) ∨ ∀ t ∈ ts.head?, t.isMarker)
    (hleads : sc.Leads (ts ++ us)) (hcontinues : sc.Continues c sc') : o.Placed ts ∧ (o.run ts).Opened sc' := by
  -- An attribute is added to the line and forgets what was closed last, so the outline and the scopes vary.
  induction h generalizing o sc with
  | start tags ht =>
    rw [run_cons, run_nil, read_begin ht]
    exact ⟨placed_marker ht o, hopened.quiet hcontinues (htags'.trans htags.symm) rfl fun _ => ⟨rfl, rfl⟩⟩
  | newline tags ht =>
    rw [run_cons, run_nil, read_newline ht]
    refine ⟨placed_marker ht o, hopened.quiet hcontinues (htags'.trans htags.symm) rfl fun hcomment => ⟨rfl, ?_⟩⟩
    rw [hcomment]
    rfl
  | @dedent tags tag t c ht hc =>
    rw [run_cons, run_nil, read_dedent ht]
    exact ⟨placed_marker ht o, hopened.closed hcontinues rfl (by rw [htags, htags'])⟩
  | @lineComment tags c ts h =>
    have hwritten : LineComment.WrittenAfter (some c) ts := h
    obtain ⟨sign, cs, rfl, hsign⟩ := h.head
    have hattributes : ∀ u ∈ o.line, u.category = .attributeWord := by
      rw [← append_nil (sign :: cs)] at hline
      exact line_of_plain hline (cons_ne_nil _ _) hwritten.plain
    refine ⟨placed_of_not_isCode (fun t ht hcode => ?_) o, ?_⟩
    · rcases hwritten.mem t ht with hsign | hraw
      · rw [hcode.sign] at hsign
        cases hsign
      · rw [hcode.raw] at hraw
        cases hraw
    · rw [run_plain hwritten.plain]
      refine hopened.quiet hcontinues (htags'.trans htags.symm) rfl fun hcomment => ⟨?_, rfl⟩
      rw [eq_nil_of_code? hattributes hcomment, nil_append, code?_cons, if_pos hsign]
  | @blockComment tags sign t lines ts hsign ht h =>
    have hmarker := isMarker_of_isCommentSign hsign
    refine ⟨placed_of_not_isCode ?_ o, ?_⟩
    · refine forall_mem_cons.mpr ⟨fun hcode => ?_, forall_mem_cons.mpr
        ⟨not_isCode_of_is ht, h.not_isCode⟩⟩
      rw [hcode.sign] at hsign
      cases hsign
    · refine hopened.behind hcontinues rfl (htags'.trans htags.symm) ?_
      rw [run_cons, read_plain hmarker, run_cons, read_indent ht, (h.run _).1]
      rfl
  | @passthrough tags openers opener t lines ts hopener hopeners ht h =>
    have hplain := (codes_concat hopeners hopener).plain
    rw [append_cons] at hline hleads ⊢
    have hattributes := line_of_plain hline (by simp) hplain
    refine ⟨hopened.placed_line hattributes ?_ hplain ?_, ?_⟩
    · rw [append_assoc] at hleads
      exact hleads.of_append
    · refine placed_of_not_isCode (forall_mem_cons.mpr ?_) _
      exact ⟨not_isCode_of_is ht, h.not_isCode⟩
    · refine hopened.behind hcontinues rfl (htags'.trans htags.symm) ?_
      rw [run_line hplain, run_cons, read_indent ht, (h.run _).1]
      rfl
  | @simple tags tags' s comment e ts cs es hcodes hs hcomment he =>
    have hplain := hcodes.plain_append hcomment
    rw [← append_assoc] at hline hleads ⊢
    have hattributes := line_of_plain hline
      (append_ne_nil_of_left_ne_nil (hcodes.ne_nil s.words_ne_nil) _) hplain
    rw [append_assoc] at hleads
    have hplaced : ∀ {us : List Token}, Placed { o with line := o.line ++ (ts ++ cs) } us → o.Placed (ts ++ cs ++ us) :=
      hopened.placed_line hattributes hleads.of_append hplain
    rw [run_line hplain]
    cases he with
    | input => exact ⟨hplaced trivial, hopened.behind hcontinues rfl (htags'.trans htags.symm) rfl⟩
    | line _ ht =>
      rw [run_cons, run_nil, read_newline ht]
      exact ⟨hplaced (placed_marker ht _), hopened.behind hcontinues rfl (htags'.trans htags.symm) rfl⟩
    | @closing _ tag _ _ ht hc =>
      rw [run_cons, run_nil, read_dedent ht]
      exact ⟨hplaced (placed_marker ht _), hopened.closed hcontinues rfl (by rw [htags, htags'])⟩
  | @block tags header comment bare ts cs t hcodes hheader hcomment ht =>
    have hplain := hcodes.plain_append hcomment
    rw [← append_assoc] at hline hleads ⊢
    have hattributes := line_of_plain hline
      (append_ne_nil_of_left_ne_nil (hcodes.ne_nil (by simp)) _) hplain
    rw [append_assoc] at hleads
    refine ⟨hopened.placed_line hattributes hleads.of_append hplain ?_, ?_⟩
    · exact placed_marker ht _
    · refine opened_of_previous_ne ?_ (hcontinues.previous_ne rfl (by rw [htags, htags']; simp))
      rw [run_line hplain, run_cons, run_nil, read_indent ht, htags']
      exact .cons (.header hattributes hcodes) (by rw [← htags]; exact hopened.above)
  | @labels tags lines ts h =>
    obtain ⟨l, line, cs, m, rest, rfl, hwritten⟩ := h.head
    have hattributes := line_of_plain hline (hwritten.codes.ne_nil (by simp)) hwritten.codes.plain
    rw [append_assoc, hwritten.leads_iff] at hleads
    obtain ⟨label, hrun⟩ := h.run o
    refine ⟨h.placed hopened hattributes hleads, opened_of_previous_ne ?_ (hcontinues.previous_ne rfl ?_)⟩
    · rw [hrun, htags']
      exact .cons (.label _) (by rw [← htags]; exact hopened.above)
    · rw [htags, htags']
      simp
  | @attributed tags tags' t c ts ht hcategory hfirst h ih =>
    rw [← category_eq ht.raw] at hcategory
    have hattributes : ∀ u ∈ o.line, u.category = .attributeWord := by
      rw [← singleton_append] at hline
      exact line_of_plain hline (cons_ne_nil _ _) (by simpa using ht.marker)
    rw [cons_append, Scopes.leads_of_attribute hcategory] at hleads
    have hbehind : sc.forget.Continues c sc' := by
      intro tag htag hprevious
      rcases hcontinues tag htag hprevious with ⟨hquiet, -⟩ | htop
      · cases hquiet
      · exact .inr htop
    have hline' : ∀ u ∈ o.line ++ [t], u.category = .attributeWord :=
      forall_mem_append.mpr ⟨hattributes, by simpa using hcategory⟩
    have hopened₁ : Opened { o with line := o.line ++ [t] } sc.forget := hopened.forget rfl
    have htags₁ : sc.forget.tags = tags := htags
    obtain ⟨hplaced, hopened'⟩ := ih htags₁ htags' hopened₁ (.inl hline') hleads hbehind
    rw [run_cons, read_plain ht.marker]
    refine ⟨⟨fun _ _ => ⟨sc, hopened, ?_⟩, ?_⟩, hopened'⟩
    · rw [Lexeme.category_eq_attributeWord_iff.mp hcategory]
      trivial
    · rw [read_plain ht.marker]
      exact hplaced

theorem Clause.Written.rests (h : c.Written tags ts tags') (hinput : c.endsInput = false) (o : Outline) :
    (o.run ts).line = [] ∨ ∃ u ∈ ts.getLast?, u.isCommentSign ∨ u.raw := by
  induction h generalizing o with
  | start _ ht => simp [read_begin ht]
  | newline _ ht => simp [read_newline ht]
  | dedent ht _ => simp [read_dedent ht]
  | @lineComment _ c ts h =>
    have hwritten : LineComment.WrittenAfter (some c) ts := h
    obtain ⟨sign, cs, rfl, -⟩ := h.head
    refine .inr ⟨_, getLast?_eq_some_getLast (cons_ne_nil sign cs), ?_⟩
    exact hwritten.mem _ (getLast_mem _)
  | blockComment _ hsign ht h =>
    rw [run_cons, run_cons]
    exact .inl (h.run _).2
  | passthrough _ hopener hopeners ht h =>
    rw [run_append, run_cons, run_cons]
    exact .inl (h.run _).2
  | simple hcodes hs hcomment he =>
    cases he with
    | input => cases hinput
    | line _ ht => simp [read_newline ht]
    | closing ht _ => simp [read_dedent ht]
  | block _ _ _ _ ht => simp [read_indent ht]
  | labels _ h =>
    obtain ⟨line, hrun⟩ := h.run o
    exact .inl (by rw [hrun])
  | attributed ht _ _ _ ih =>
    rcases ih hinput (o.read _) with hnil | ⟨u, hu, hends⟩
    · exact .inl hnil
    · exact .inr ⟨u, mem_getLast?_cons hu, hends⟩

end

/-! ## All clauses -/

/-- A clause from the start of a line, or from behind a comment. It ends a line, unless it ends with
a comment. -/
theorem Session.clause_line {s₁ : Session} {rest : List Token} (hrest : s.stream.rest = t :: rest)
    (hclause : clause t (s.start t rest) = .ok c s₁) (hchain : s.stream.rest.IsChain Adjacent)
    (hline : o.line = [] ∨ ∀ u ∈ s.stream.rest.head?, u.raw ∨ u.isMarker) :
    ∃ ts, s.stream.Reads ts s₁.stream ∧ c.Written s.scopes.tags ts s₁.scopes.tags ∧
      ((∀ u ∈ o.line, u.category = .attributeWord) ∨ ∀ u ∈ ts.head?, u.isMarker) ∧
      s₁.stream.rest.IsChain Adjacent ∧
      ((o.run ts).line = [] ∨ ∀ u ∈ s₁.stream.rest.head?, u.raw ∨ u.isMarker) := by
  have hchained : s.reader.Chained := hchain.imp fun t u hadjacent => hadjacent.raw
  have hbegan : s.Began t (s.start t rest) := ⟨hchained, .one hrest, rfl⟩
  obtain ⟨ts, hts, hwritten, -, hinput, -⟩ := clause_ensures hbegan _ _ hclause
  have hraw : t.raw = false := clauseIn_raw _ t _ _ _ hclause
  have hsplit : t :: rest = ts ++ s₁.stream.rest := hrest.symm.trans hts.1
  rw [hrest] at hline
  rw [hts.1] at hchain
  obtain ⟨-, hchain₁, hadjacent⟩ := isChain_append.mp hchain
  refine ⟨ts, hts, hwritten, ?_, hchain₁, ?_⟩
  · rcases hline with hnil | hmarker
    · exact .inl (by simp [hnil])
    · refine .inr fun u hu => ?_
      cases ts with
      | nil => cases hu
      | cons v ts =>
        obtain rfl : t = v := (cons.inj hsplit).1
        obtain rfl : t = u := Option.some.inj hu
        exact (hmarker t rfl).resolve_left (by rw [hraw]; exact Bool.false_ne_true)
  · cases hends : c.endsInput with
    | true => exact .inr (by simp [hinput hends])
    | false =>
      rcases hwritten.rests hends o with hnil | ⟨v, hv, hcomment⟩
      · exact .inl hnil
      · refine .inr fun u hu => ?_
        have hnext := hadjacent v hv u hu
        exact hcomment.elim hnext.comment fun hraw => .inr (hnext.text hraw)

/-- So are the tokens of a whole run. -/
theorem Session.Translates.placed {s' : Session} {cs : List Clause} (h : s.Translates cs s')
    (hchain : s.stream.rest.IsChain Adjacent) (hopened : o.Opened s.scopes)
    (hline : o.line = [] ∨ ∀ u ∈ s.stream.rest.head?, u.raw ∨ u.isMarker) :
    ∃ ts, s.stream.Reads ts s'.stream ∧ o.Placed ts := by
  induction h generalizing o with
  | refl s => exact ⟨[], Stream.Reads.refl _, trivial⟩
  | @step s s₁ s' t rest c cs hrest hclause _ ih =>
    obtain ⟨ts, hts, hwritten, hfirst, hchain₁, hline₁⟩ := Session.clause_line hrest hclause hchain hline
    have hleads : s.scopes.Leads (t :: rest) := clauseIn_leads _ t _ _ _ hclause
    have hcontinues : s.scopes.Continues c s₁.scopes := by
      have heffect := (clauseIn_turns _ t (s.start t rest) _ _ hclause).effect
      rw [show s₁.scopes = _ from congrArg Enclosure.scopes heffect]
      exact c.continues s.enclosure
    rw [← hrest, hts.1] at hleads
    obtain ⟨hplaced, hopened₁⟩ := hwritten.placed rfl rfl hopened hfirst hleads hcontinues
    obtain ⟨us, hus, hplaced'⟩ := ih hchain₁ hopened₁ hline₁
    exact ⟨ts ++ us, hts.trans hus, Outline.placed_append.mpr ⟨hplaced, hplaced'⟩⟩

/-- Every word of an accepted source is at its place. -/
theorem SourceHistory.Accepts.placed {unit source : Text} {scanned : Scanned} {h : History}
    (haccepts : SourceHistory.Accepts unit source h) (hscan : (scan unit source).outcome = .ok scanned) :
    Outline.Placed {} scanned.tokens := by
  obtain ⟨hrun, hstop⟩ := haccepts
  obtain ⟨_, hscan', rfl⟩ := SourceHistory.history_eq hrun
  obtain rfl := Except.ok.inj (hscan.symm.trans hscan')
  obtain ⟨hrest, htranslates⟩ := History.translates_of_stop? hstop
  have hopened : Outline.Opened {} ({} : Scopes Tag) := ⟨.nil, fun _ _ h => nomatch h⟩
  obtain ⟨ts, hreads, hplaced⟩ := htranslates.placed (chain_of_scan hscan) hopened (.inl rfl)
  have htokens : scanned.tokens = ts := by
    have hsplit : scanned.tokens = ts ++ _ := hreads.1
    rw [hsplit, hrest, append_nil]
  rw [htokens]
  exact hplaced

end Offside
