/-
A clause is what its tokens write.

`Session.Started` follows the words read since a clause began, and `Session.Said` what they ask for.
The end of a clause is read in four ways only, so each statement is a few steps and then one of
these.
-/
import Offside.Proofs.Parse.Declaration
import Offside.Proofs.Translate.Run

set_option autoImplicit false

namespace Offside

open List Token Parse Helper

/-! ## Sessions inside a clause -/

variable {first : Text} {t : Token} {r : Reader}
variable {f : Form} {c : Clause} {header : Header} {r' : Reader}

theorem Reader.Chained.cons (h : r.Chained) (hread : r.Reads [t] r') :
    (t :: r'.stream.rest).IsChain MayPrecede := by
  rw [Chained, hread.stream.1] at h
  exact h

theorem Reader.Chained.clear (h : r.Chained) (hread : r.Reads [t] r') (ht : t.IsCode) : r'.Clear :=
  Behind.clear ⟨ht.raw, h.cons hread⟩ ht

/-! ## Forms of clauses -/

def Form.Says (words : List Text) : Form → Prop
  | .line _ statement => statement.words = words ∧ statement.WellFormed
  | .block header => (∃ bare, header.words bare = words) ∧ header.WellFormed
  | .userType header => (Header.userType header).words true = words ∧ header.WellFormed

namespace Parse

open Reader (Clear Behind Spells Proceeds)

variable {r : Reader} {t : Token}

def Says (first : Text) (p : Parse Form) (r : Reader) : Prop :=
  Ensures p r fun f r' => ∃ ws, f.Says (first :: ws) ∧ r.Proceeds first ws r'

theorem Says.line {p : Parse Simple} (jumps : Bool) (hp : YieldsAfter first p Simple.words Simple.WellFormed)
    (hr : r.Clear) : Says first (do return .line jumps (← p)) r := by
  refine .seq (hp r hr) ?_
  rintro statement r' ⟨ws, hws, hproceeds, hok⟩
  exact .pure ⟨ws, ⟨hws, hok⟩, hproceeds⟩

theorem Says.block {p : Parse Header} (bare : Bool)
    (hp : YieldsAfter first p (Header.words bare) Header.WellFormed) (hr : r.Clear) :
    Says first (do return .block (← p)) r := by
  refine .seq (hp r hr) ?_
  rintro header r' ⟨ws, hws, hproceeds, hok⟩
  exact .pure ⟨ws, ⟨⟨bare, hws⟩, hok⟩, hproceeds⟩

/-- A form says the words that its parts were read from. -/
theorem Says.map {α : Type} {p : Parse α} {w : α → List Text} {P : α → Prop} (make : α → Form)
    (hmake : ∀ a, P a → (make a).Says (first :: w a)) (hp : Yields p w P) (hfirst : first.Leads) (hr : r.Clear) :
    Says first (do return make (← p)) r := by
  refine .seq (hp r hr) ?_
  rintro a r' ⟨hspells, hok, hr'⟩
  exact .pure ⟨w a, hmake a hok, hspells.proceeds hfirst hr'⟩

theorem Says.one (hf : f.Says [first]) (hfirst : first.Leads) (hr : r.Clear) :
    Says first (pure f) r := .pure ⟨[], hf, (Spells.refl r).proceeds hfirst hr⟩

theorem targetForm_says (hr : r.Clear) (hatom : (Lexeme.ofText t.text).isAtom) :
    Says t.text (targetForm t) r := by
  have hfirst : t.text.Leads := Text.leads_of_isInert (Category.isInert_of_isAtom hatom)
  refine .seq (accessors_ensures hr) ?_
  intro accessors r₁ haccessors
  have hok : (Target.mk t.text accessors).operand.WellFormed := ⟨hatom, haccessors.ok⟩
  dsimp only
  refine atCategory_ensures (fun u rest hrest hu => ?_) ?_
  · refine .seq (popOf_ensures (by rfl) (by decide) haccessors.clear hrest hu) ?_
    rintro op r₂ ⟨rfl, hop, hcategory, hr₂⟩
    refine .seq (expression_yields r₂ hr₂) ?_
    rintro value r₃ ⟨hvalue, hvalueOk, hr₃⟩
    exact .pure ⟨_, ⟨rfl, hok, hcategory, hvalueOk⟩,
      (haccessors.spells.trans (hop.trans hvalue)).proceeds hfirst hr₃⟩
  · refine .seq (.of_safe (atLineEnd_spec r₁)) ?_
    rintro atEnd _ rfl
    split
    · exact .pure ⟨_, ⟨rfl, hok⟩, haccessors.spells.proceeds hfirst haccessors.clear⟩
    · exact .behind fun _ _ => .throw

theorem declarationForm_says (hr : r.Behind t) (hfirst : t.text.Leads) : Says t.text (declarationForm t) r := by
  refine .seq (variableDeclaration_ensures hr) ?_
  rintro statement r' ⟨-, ws, hws, hparsed⟩
  exact .pure ⟨ws, ⟨hws, hparsed.ok⟩, hparsed.spells.proceeds hfirst hparsed.clear⟩

/-- The form of a statement says its words. -/
theorem statementForm_says (w : StatementWord) (v : View) (hr : r.Clear) (htext : t.text = w.text) :
    Says w.text (statementForm w t v) r := by
  have hfirst : w ≠ .printWord ∧ w ≠ .forWord → w.text.Leads := StatementWord.leads
  unfold statementForm
  cases w with
  | returnWord =>
    refine .guard fun _ => .seq (.of_safe (atLineEnd_spec r)) ?_
    rintro (_ | _) _ rfl
    · exact Says.map _ (fun value hok => ⟨rfl, hok⟩) expression_yields (hfirst (by decide)) hr
    · exact Says.one ⟨rfl, trivial⟩ (hfirst (by decide)) hr
  | breakWord =>
    exact .guard fun _ =>
      Says.one ⟨congrArg (fun text => [text]) htext, .inl htext⟩ (hfirst (by decide)) hr
  | continueWord =>
    exact .guard fun _ =>
      Says.one ⟨congrArg (fun text => [text]) htext, .inr htext⟩ (hfirst (by decide)) hr
  | passWord => exact Says.one ⟨rfl, trivial⟩ (hfirst (by decide)) hr
  | printWord =>
    refine .seq (P := fun _ r₁ => r₁ = { r with helpers := r.helpers.require .print }) ?_ ?_
    · rintro _ _ ⟨⟩
      rfl
    rintro _ _ rfl
    have hr₁ : Clear { r with helpers := r.helpers.require .print } := ⟨hr.next, hr.chain⟩
    -- The helper is recorded before the arguments are read.
    have hproceeds : ∀ {ws r'}, Spells { r with helpers := r.helpers.require .print } ws r' → r'.Clear →
        r.Proceeds "print" ws r' := by
      intro ws r' h hr'
      refine ⟨h.code, hr', ((Prelude.Records.one r.helpers .print).trans h.helpers).congr fun x => ?_⟩
      exact askedBy_print.symm
    refine .seq (.of_safe (atLineEnd_spec _)) ?_
    rintro (_ | _) _ rfl
    · refine .seq (expressionList_yields _ hr₁) ?_
      rintro arguments r₂ ⟨harguments, ⟨-, hok⟩, hr₂⟩
      exact .pure ⟨_, ⟨rfl, hok⟩, hproceeds harguments hr₂⟩
    · exact .pure ⟨[], ⟨rfl, trivial⟩, hproceeds (Spells.refl _) hr₁⟩
  | assertWord =>
    refine .seq (expressionList_yields r hr) ?_
    rintro arguments r₁ ⟨harguments, ⟨-, hok⟩, hr₁⟩
    exact .guard fun _ => .pure ⟨_, ⟨rfl, hok⟩, harguments.proceeds (hfirst (by decide)) hr₁⟩
  | forWord => exact Says.block true (forHeader_yields true) hr
  | whileWord =>
    exact Says.map _ (fun condition hok => ⟨⟨true, rfl⟩, hok⟩) expression_yields (hfirst (by decide)) hr
  | unittestWord => exact Says.one ⟨⟨true, rfl⟩, trivial⟩ (hfirst (by decide)) hr
  | passthroughWord => exact .throw

/-- Every form says the words it was read from. -/
theorem form_says {v : View} (hr : r.Behind t) (ht : t.IsCode) : Says t.text (form t.lexeme t v) r := by
  have hclear : r.Clear := hr.clear ht
  have hlexeme := lexeme_eq ht.raw
  have htarget : ∀ {l : Lexeme}, t.lexeme = l → l.isAtom → Says t.text (targetForm t) r := by
    intro l hl hatom
    refine targetForm_says hclear ?_
    rw [← hlexeme, hl]
    exact hatom
  have htext : ∀ {k : Keyword} {word : Text}, t.lexeme = .keyword k → k.text? = some word → t.text = word :=
    fun hl hword => Lexeme.text_of_keyword (hlexeme ▸ hl) hword
  have hinert : ∀ {l : Lexeme}, t.lexeme = l → l.category.isInert → t.text.Leads := by
    intro l hl hinert
    refine Text.leads_of_isInert ?_
    rw [Category.ofText, ← hlexeme, hl]
    exact hinert
  -- A keyword with one spelling fixes the first word.
  have hkeyword : ∀ {k : Keyword} {word : Text} {p : Parse Form}, t.lexeme = .keyword k → k.text? = some word →
      k.category.isInert → (word.Leads → Says word p r) → Says t.text p r := by
    intro k word p hl hword hk hsays
    have hfirst := hinert hl hk
    rw [htext hl hword] at hfirst ⊢
    exact hsays hfirst
  unfold form
  split
  · next hl =>
    rw [htext hl rfl]
    exact Says.line false moduleImport_yields hclear
  · next hl =>
    rw [htext hl rfl]
    exact Says.line false symbolImport_yields hclear
  · next w hl =>
    have hw := htext hl rfl
    rw [hw]
    exact statementForm_says w v hclear hw
  · next hl =>
    refine .seq (.of_safe (atText_spec _ r)) ?_
    rintro called _ ⟨rfl, -⟩
    split
    · refine hkeyword hl rfl rfl fun hfirst => ?_
      exact .guard fun _ => Says.map _ (fun _ hok => ⟨⟨true, rfl⟩, hok⟩) parameters_yields hfirst hclear
    · exact htarget hl rfl
  · next hl => exact htarget hl rfl
  · next hl =>
    refine accept_ensures (by rfl) hclear (fun r₁ hr₁ h₁ => ?_) fun _ => htarget hl rfl
    refine .seq (expression_yields r₁ hr₁) ?_
    rintro value r₂ ⟨hvalue, hok, hr₂⟩
    refine .pure ⟨_, ⟨rfl, ?_, hok⟩, (h₁.trans hvalue).proceeds (hinert hl rfl) hr₂⟩
    rw [Category.ofText, ← hlexeme, hl]
    rfl
  · next hl =>
    refine .seq (.of_safe (atText_spec _ r)) ?_
    rintro member _ ⟨rfl, -⟩
    refine .seq (.of_safe (atText_spec _ _)) ?_
    rintro called _ ⟨rfl, -⟩
    split
    · exact htarget hl rfl
    · exact declarationForm_says hr (hinert hl rfl)
  · next hl => exact declarationForm_says hr (hinert hl rfl)
  · next hl => exact .guard fun _ => declarationForm_says hr (hinert hl rfl)
  · next w hl =>
    refine hkeyword hl rfl rfl fun hfirst => .guard fun _ => .seq (functionHeader_ensures _ _ _ hclear) ?_
    rintro header r' ⟨bare, rfl, hspells, hok, hr'⟩
    exact .pure ⟨_, ⟨⟨bare, rfl⟩, hok⟩, hspells.proceeds hfirst hr'⟩
  · next hl => exact htarget hl rfl
  · next w hl =>
    refine hkeyword hl rfl rfl fun hfirst => .seq (userTypeHeader_ensures w hclear) ?_
    rintro header r' ⟨rfl, hspells, hok, hr'⟩
    exact .pure ⟨_, ⟨rfl, hok⟩, hspells.proceeds hfirst hr'⟩
  · next hl =>
    exact hkeyword hl rfl rfl fun hfirst =>
      Says.map _ (fun condition hok => ⟨⟨true, rfl⟩, hok⟩) expression_yields hfirst hclear
  · next hl =>
    refine hkeyword hl rfl rfl fun hfirst => accept_ensures (by rfl) hclear (fun r₁ hr₁ h₁ => ?_)
      fun _ => Says.one ⟨⟨true, rfl⟩, trivial⟩ hfirst hclear
    refine .seq (expression_yields r₁ hr₁) ?_
    rintro condition r₂ ⟨hcondition, hok, hr₂⟩
    exact .pure ⟨_, ⟨⟨true, rfl⟩, hok⟩, (h₁.trans hcondition).proceeds hfirst hr₂⟩
  · next hl =>
    exact hkeyword hl rfl rfl fun hfirst =>
      Says.map _ (fun subject hok => ⟨⟨true, rfl⟩, hok⟩) expression_yields hfirst hclear
  · next hl => exact hkeyword hl rfl rfl fun hfirst => Says.one ⟨⟨true, rfl⟩, trivial⟩ hfirst hclear
  · next hl =>
    rw [htext hl rfl]
    exact Says.block true (catchHeader_yields true) hclear
  · next hl => exact hkeyword hl rfl rfl fun hfirst => Says.one ⟨⟨true, rfl⟩, trivial⟩ hfirst hclear
  · next hl =>
    rw [htext hl rfl]
    exact Says.line true raised_yields hclear
  · exact .throw

end Parse

/-! ## What a clause asks for -/

theorem Header.askedBy_words (h : header.WellFormed) (bare : Bool) (x : Helper) :
    x.AskedBy (header.words bare) ↔ x.AskedBy (header.words true) := by
  cases header with
  | function f =>
    have hleads : f.word.text.Leads := Keyword.leads (k := .functionWord f.word) rfl rfl
    have hname : Text.Quiet f.name := Text.quiet_of_category h.name (by decide)
    by_cases hempty : f.parameters = []
    · rw [words, words, askedBy_leads hleads, askedBy_leads hleads, FunctionHeader.words,
        FunctionHeader.words, within_cons hname, within_cons hname, hempty]
      cases bare with
      | true => rfl
      | false => exact (within_cons (by decide)).trans (within_cons (by decide))
    · have hparens : ∀ b : Bool, (b && f.parameters.isEmpty) = false := by simp [hempty]
      rw [words, words, FunctionHeader.words, FunctionHeader.words, hparens, hparens]
  | _ => rfl

def Clause.Asks (x : Helper) : Clause → Prop
  | simple statement _ _ => x.AskedBy statement.words
  | block header _ _ => x.AskedBy (header.words true)
  | labels lines => ∃ line ∈ lines, x.AskedBy line.label.words
  | attributed _ clause => clause.Asks x
  | start | newline _ | dedent _ | lineComment _ | blockComment .. | passthrough .. => False

namespace Session

/-- Since `s₀` the first token of a clause was read. -/
structure Began (s₀ : Session) (t : Token) (s : Session) : Prop where
  chained : s₀.reader.Chained
  read : s₀.reader.Reads [t] s.reader
  tags : s.scopes.tags = s₀.scopes.tags

/-- Since `s₀` the words of a clause were read, which are code, and no scope was opened or closed. -/
structure Started (s₀ : Session) (words : List Text) (s : Session) : Prop where
  spells : s₀.stream.Spells IsCode words s.stream
  tags : s.scopes.tags = s₀.scopes.tags
  clear : s.reader.Clear

/-- These were all of its words, and what they ask for was recorded. -/
structure Said (s₀ : Session) (words : List Text) (s : Session) : Prop extends Started s₀ words s where
  helpers : s₀.reader.helpers.Records (fun x => x.AskedBy words) s.reader.helpers

/-- Since `s₀` the tokens of the clause were read. A clause that ends with the input has read all. -/
def Writes (s₀ : Session) (c : Clause) (s : Session) : Prop :=
  ∃ ts, s₀.stream.Reads ts s.stream ∧ c.Written s₀.scopes.tags ts s.scopes.tags ∧ s.reader.Chained ∧
    (c.endsInput → s.stream.rest = []) ∧ s₀.reader.helpers.Records (fun x => c.Asks x) s.reader.helpers

/-- Since `s₀` the lines of labels were read, and the scope of their body was opened. -/
def WritesLabels (s₀ : Session) (lines : List LabelLine) (s : Session) : Prop :=
  ∃ ts, s₀.stream.Reads ts s.stream ∧ LabelLine.AllWritten lines ts ∧
    s.scopes.tags = .caseBody :: s₀.scopes.tags ∧
      s₀.reader.helpers.Records (fun x => ∃ line ∈ lines, x.AskedBy line.label.words) s.reader.helpers

variable {s₀ s s' : Session} {words words' : List Text}

theorem Said.of_same (h : s₀.Said words s) (hreader : s'.reader = s.reader)
    (htags : s'.scopes.tags = s.scopes.tags) : s₀.Said words s' where
  spells := by
    have hstream : s'.stream = s.stream := congrArg Reader.stream hreader
    rw [hstream]
    exact h.spells
  tags := htags.trans h.tags
  clear := by rw [hreader]; exact h.clear
  helpers := by rw [hreader]; exact h.helpers

theorem Started.spell (h : s₀.Started words s) (hwords : s.stream.Spells IsCode words' r.stream)
    (hr : r.Clear) : s₀.Started (words ++ words') (s.reading r) where
  spells := h.spells.trans hwords
  tags := h.tags
  clear := hr

theorem Began.clear (h : s₀.Began t s) (ht : t.IsCode) : s.reader.Clear := h.chained.clear h.read ht

theorem Began.started (h : s₀.Began t s) (ht : t.IsCode) : s₀.Started [t.text] s where
  spells := Stream.Spells.one h.read.stream ht
  tags := h.tags
  clear := h.clear ht

/-- The words of a line follow its first one. -/
theorem Began.said (h : s₀.Began t s) (ht : t.IsCode) (hline : s.reader.Proceeds t.text words r) :
    s₀.Said (t.text :: words) (s.reading r) where
  toStarted := (h.started ht).spell hline.code hline.clear
  helpers := by rw [← h.read.helpers]; exact hline.helpers

theorem Said.colon (h : s₀.Said words s) (hcolon : s.reader.Takes [":"] r) (hr : r.Clear) :
    s₀.Said (words ++ [(":" : Text)]) (s.reading r) where
  toStarted := h.toStarted.spell hcolon.code hr
  helpers := by
    rw [hcolon.helpers]
    exact h.helpers.congr fun _ => askedBy_colon.symm

/-- A clause is written by its words and the end of its line. -/
theorem Said.writes {us : List Token} (h : s₀.Said words s) (hus : s.reader.Reads us s'.reader)
    (hasks : ∀ x, x.AskedBy words ↔ c.Asks x)
    (hc : ∀ ts, Codes ts words → c.Written s.scopes.tags (ts ++ us) s'.scopes.tags)
    (hinput : c.endsInput → s'.stream.rest = []) : s₀.Writes c s' := by
  obtain ⟨ts, hts, hcodes⟩ := h.spells
  have hchained : s.reader.Chained := h.clear.chain
  refine ⟨ts ++ us, hts.trans hus.stream, ?_, hchained.reads hus.stream, hinput, ?_⟩
  · rw [← h.tags]
    exact hc ts hcodes
  · rw [hus.helpers]
    exact h.helpers.congr hasks

theorem writes_of_reads {ts : List Token} (hs₀ : s₀.reader.Chained) (hts : s₀.reader.Reads ts s.reader)
    (hasks : ∀ x, ¬ c.Asks x) (hinput : c.endsInput = false) (hc : c.Written s₀.scopes.tags ts s.scopes.tags) :
    s₀.Writes c s :=
  ⟨ts, hts.stream, hc, hs₀.reads hts.stream, fun h => absurd h (by rw [hinput]; exact Bool.false_ne_true),
    .of_none hasks hts.helpers⟩

end Session

namespace Translate

variable {s₀ s : Session} {words : List Text}

/-! ## Ends of lines and blocks -/

theorem openScope_ensures (tag : Tag) (s : Session) : Ensures (openScope tag) s fun _ s' =>
      s' = { s with scopes := { s.scopes with tags := tag :: s.scopes.tags } } :=
  fun _ _ hm => (openScope_ok hm).2

theorem closes_closing (tag : Tag) (jumped : Bool) (t : Token) : (tag.closing jumped t.level).Closes tag t := by
  by_cases hcase : tag = .caseBody
  · rw [Tag.closing, if_pos hcase]
    exact ⟨hcase, rfl⟩
  · rw [Tag.closing, if_neg hcase]
    exact ⟨hcase, rfl⟩

theorem closeBlock_ensures (t : Token) (s : Session) : Ensures (closeBlock t) s fun c s' => ∃ tag,
      s.scopes.tags = tag :: s'.scopes.tags ∧ c.Closes tag t ∧ s'.reader = s.reader := by
  intro c s' hm
  obtain ⟨tag, tags, htags, -, rfl, rfl⟩ := closeBlock_ok hm
  exact ⟨tag, htags, closes_closing tag _ t, rfl⟩

/-- A statement and its ending write a clause. -/
theorem finish_ensures {statement : Simple} (h : s₀.Said statement.words s) (hok : statement.WellFormed) :
    Ensures (finish statement) s s₀.Writes := by
  refine .parse (trailingComment_ensures h.clear) ?_
  rintro comment r₁ ⟨cs, hcs, hcomment, hr₁⟩
  refine .parse (peek?_ensures r₁) ?_
  rintro _ r ⟨rfl, rfl⟩
  -- The code and the comment are read; what is left is the ending.
  have hwrites : ∀ (ending : Ending) (es : List Token) (s' : Session),
      r.Reads es s'.reader → ending.Written s.scopes.tags es s'.scopes.tags →
      (ending = .input → s'.stream.rest = []) → s₀.Writes (.simple statement comment ending) s' := by
    intro ending es s' hes hending hinput
    refine h.writes (hcs.trans hes) (fun _ => Iff.rfl) (fun ts hts => .simple hts hok hcomment hending) ?_
    cases ending with
    | input => exact fun _ => hinput rfl
    | line | closing => exact fun h => nomatch h
  rcases hrest : r.stream.rest with _ | ⟨t, rest⟩
  · exact .pure (hwrites _ _ _ (.refl _) (.input _) fun _ => hrest)
  refine .parse (pop_reads hrest) ?_
  rintro t r₂ ⟨rfl, hread⟩
  refine .ite (fun hnewline => ?_) fun _ => .ite (fun hdedent => ?_) fun _ => .throw
  · exact .pure (hwrites _ _ _ hread (.line _ hnewline) fun h => nomatch h)
  · refine .seq (closeBlock_ensures t _) ?_
    rintro c s' ⟨tag, htags, hcloses, hreader⟩
    refine .pure (hwrites _ [t] _ ?_ ?_ fun h => nomatch h)
    · rw [hreader]
      exact hread
    · have htags : s.scopes.tags = tag :: s'.scopes.tags := htags
      rw [htags]
      exact .closing hdedent hcloses

/-- A header and its block write one. -/
theorem openBlock_ensures (bare : Bool) (h : s₀.Said (header.words bare) s) (hok : header.WellFormed) :
    Ensures (openBlock header) s s₀.Writes := by
  refine .parse (expect_takes (by rfl) h.clear) ?_
  rintro _ r₁ ⟨h₁, hr₁⟩
  refine .parse (trailingComment_ensures hr₁) ?_
  rintro comment r₂ ⟨cs, hcs, hcomment, hr₂⟩
  refine .parse (next_reads _ r₂) ?_
  intro t r₃ hread
  refine .guard fun hindent => ?_
  rw [Bool.not_eq_true, Bool.not_eq_false'] at hindent
  refine .seq (openScope_ensures _ _) ?_
  rintro _ _ rfl
  refine .pure ((h.colon h₁ hr₁).writes (hcs.trans hread) (fun x => ?_) (fun ts hts => ?_)
    fun h => nomatch h)
  · exact askedBy_colon.trans (Header.askedBy_words hok bare x)
  · exact .block _ hts hok hcomment hindent

/-! ## Raw blocks -/

/-- A raw block is written by its tokens. -/
theorem rawBlock_ensures {tag : Tag} (hnext : s.reader.stream.nextWord? = some Marker.indent.text) :
    Ensures (rawBlock tag) s fun lines s' => ∃ t ts, t.is Marker.indent.text ∧
      s.reader.Reads (t :: ts) s'.reader ∧ RawWritten lines ts ∧ s'.scopes.tags = s.scopes.tags := by
  obtain ⟨t, rest, hrest, ht⟩ := Stream.nextWord?_eq_some_iff.mp hnext
  intro lines s' hm
  obtain ⟨_, r, r', hnext, hlines, -, rfl⟩ := rawBlock_ok hm
  rw [next_eq _ hrest] at hnext
  cases hnext
  obtain ⟨ts, hts, hlines⟩ := bounded_ensures (fun n => rawLinesIn_ensures n _) lines r' hlines
  exact ⟨t, ts, ht, (Reader.Reads.one hrest).trans hts, hlines, rfl⟩

/-- A comment writes a clause, with its block or without one. -/
theorem comment_ensures (h : s₀.Began t s) (hsign : t.isCommentSign) : Ensures (comment t) s s₀.Writes := by
  refine .parse (atText_answers Marker.indent.text s.reader) ?_
  rintro (_ | _) r ⟨rfl, hindent⟩
  · refine .parse (lineComment_ensures hsign (h.chained.cons h.read)) ?_
    rintro c r₁ ⟨cs, hcs, hc, hr₁⟩
    refine .pure (Session.writes_of_reads h.chained (h.read.trans hcs) (fun _ => id) rfl ?_)
    rw [← h.tags]
    exact .lineComment _ hc
  · refine .seq (rawBlock_ensures (hindent rfl)) ?_
    rintro lines s' ⟨u, ts, hu, hts, hlines, htags'⟩
    refine .pure (Session.writes_of_reads h.chained (h.read.trans hts) (fun _ => id) rfl ?_)
    rw [htags', ← h.tags]
    exact .blockComment _ hsign hu hlines

theorem copyFrom_ensures (openers : List Token) {opener : Token} (hs₀ : s₀.reader.Chained)
    (hread : s₀.reader.Reads (openers ++ [opener]) s.reader)
    (htags : s.scopes.tags = s₀.scopes.tags) (hopener : opener.IsCode) (hopeners : ∀ u ∈ openers, u.IsCode)
    (hwords : (openers ++ [opener]).map Token.text <+: (["passthrough", ":"] : List Text)) :
    Ensures (copyFrom opener.level) s s₀.Writes := by
  refine .parse (atText_answers Marker.indent.text s.reader) ?_
  rintro (_ | _) r ⟨rfl, hindent⟩
  · exact .rejectNext
  · refine .seq (rawBlock_ensures (hindent rfl)) ?_
    rintro lines s' ⟨u, ts, hu, hts, hlines, htags'⟩
    have hall := hread.trans hts
    rw [append_assoc, singleton_append] at hall
    refine .modify (.pure (Session.writes_of_reads hs₀ hall (fun _ => id) rfl ?_))
    dsimp only
    rw [htags', ← htags]
    exact .passthrough _ hopener hopeners hu hlines hwords

theorem passthrough_ensures (h : s₀.Began t s) (ht : t.IsCode) (htext : t.text = "passthrough") :
    Ensures (passthrough t) s s₀.Writes := by
  rw [passthrough_eq]
  refine .parse (.of_safe (atText_spec _ s.reader)) ?_
  rintro (_ | _) r ⟨rfl, hcolon⟩
  · refine copyFrom_ensures [] h.chained h.read h.tags ht (fun _ h => nomatch h) ?_
    simp [htext]
  · obtain ⟨u, rest, hrest, hu⟩ := hcolon rfl
    refine .parse (pop_reads hrest) ?_
    rintro u r₁ ⟨rfl, hread₁⟩
    refine copyFrom_ensures [t] h.chained (h.read.trans hread₁) h.tags
      (isCode_of_is hu (by rfl)) (forall_mem_singleton.mpr ht) ?_
    simp [htext, (is_iff.mp hu).2]

/-! ## Labels -/

theorem labelEnd_ensures {more : Token → Translate (List LabelLine)} (label : Label)
    (h : s₀.Said label.words s) (hok : label.WellFormed)
    (hmore : ∀ (t : Token) (s₁ s₂ : Session), s₁.Began t s₂ → (t.is "case" || t.is "default") →
      Ensures (more t) s₂ s₁.WritesLabels) :
    Ensures (labelEnd more label) s s₀.WritesLabels := by
  refine .parse (expect_takes (by rfl) h.clear) ?_
  rintro _ r₁ ⟨h₁, hr₁⟩
  refine .parse (trailingComment_ensures hr₁) ?_
  rintro comment r₂ ⟨cs, hcs, hcomment, hr₂⟩
  refine .parse (next_reads _ r₂) ?_
  intro marker r₃ hread
  obtain ⟨ts, hts, hcodes⟩ := (h.colon h₁ hr₁).spells
  have hline : LabelLine.Written ⟨label, comment, marker.level⟩ ts cs marker :=
    ⟨hcodes, hok, hcomment, rfl⟩
  have hend := hcs.trans hread
  have hreads : s₀.stream.Reads (ts ++ (cs ++ [marker])) r₃.stream := hts.trans hend.stream
  have hrecords : s₀.reader.helpers.Records (fun x => x.AskedBy label.words) r₃.helpers := by
    rw [hend.helpers, h₁.helpers]
    exact h.helpers
  -- The body follows an indent, and another label a newline.
  refine .ite (fun hindent => ?_) fun _ => .ite (fun hnewline => ?_) fun _ => .throw
  · refine .seq (openScope_ensures _ _) ?_
    rintro _ _ rfl
    refine .pure ⟨_, hreads, .last hline hindent, congrArg _ h.tags, hrecords.congr fun x => ?_⟩
    simp
  · refine .parse (next_reads _ r₃) ?_
    intro t r₄ hread'
    refine .guard fun hlabel => ?_
    rw [Bool.not_eq_true, Bool.not_eq_false'] at hlabel
    have hchained : r₃.Chained := Reader.Chained.reads hr₂.chain hread.stream
    refine .seq (hmore t (s.reading r₃) _ ⟨hchained, hread', rfl⟩ hlabel) ?_
    rintro lines s' ⟨us, hus, hlines, htags, hrecords'⟩
    refine .pure ⟨ts ++ (cs ++ marker :: us), ?_, .more hline hnewline hlines, ?_, ?_⟩
    · have hall := hreads.trans hus
      rw [append_assoc, append_assoc, singleton_append] at hall
      exact hall
    · rw [htags]
      exact congrArg _ h.tags
    · exact (hrecords.trans hrecords').congr fun x => by simp

/-- Labels write their lines. -/
theorem labelsIn_ensures (n : Nat) (h : s₀.Began t s) (ht : (t.is "case" || t.is "default")) :
    Ensures (labelsIn n t) s s₀.WritesLabels := by
  induction n generalizing s₀ s t with
  | zero => exact .throw
  | succ n ih =>
    rw [labelsIn_succ]
    refine .get (.guard fun _ => .ite (fun hcase => ?_) fun hcase => ?_)
    · have ht := isCode_of_is hcase (by rfl)
      obtain ⟨-, htext⟩ := is_iff.mp hcase
      have hfirst : t.text.Leads := by rw [htext]; exact Keyword.leads (k := .conditional .caseWord) rfl rfl
      refine .parse (expressionList_yields s.reader (h.clear ht)) ?_
      rintro values r ⟨hvalues, ⟨-, hok⟩, hr⟩
      have hsaid := h.said ht (hvalues.proceeds hfirst hr)
      rw [htext] at hsaid
      exact labelEnd_ensures (.values values) hsaid hok fun t s₁ s₂ => ih
    · rw [Bool.not_eq_true] at hcase
      rw [hcase, Bool.false_or] at ht
      have hcode := isCode_of_is ht (by rfl)
      obtain ⟨-, htext⟩ := is_iff.mp ht
      have hfirst : t.text.Leads := by rw [htext]; exact Keyword.leads (k := .conditional .defaultWord) rfl rfl
      have hsaid := h.said hcode ((Reader.Spells.refl s.reader).proceeds hfirst (h.clear hcode))
      rw [htext] at hsaid
      exact labelEnd_ensures .fallback hsaid trivial fun t s₁ s₂ => ih

theorem labels_ensures (h : s₀.Began t s) (ht : (t.is "case" || t.is "default")) :
    Ensures (labels t) s s₀.Writes := by
  refine .modify (.get ?_)
  refine .seq (labelsIn_ensures _ ⟨h.chained, h.read, h.tags⟩ ht) ?_
  rintro lines s' ⟨ts, hts, hlines, htags', hrecords⟩
  refine .pure ⟨ts, hts, ?_, h.chained.reads hts, fun h => (nomatch h), hrecords⟩
  rw [htags']
  exact .labels _ hlines

/-! ## Forms -/

/-- A form that was said writes its clause. -/
theorem complete_ensures (h : s₀.Said words s) (hf : f.Says words) :
    Ensures f.complete s s₀.Writes := by
  cases f with
  | line jumps statement =>
    obtain ⟨rfl, hok⟩ := hf
    cases jumps with
    | true => exact .modify (finish_ensures (h.of_same rfl rfl) hok)
    | false => exact finish_ensures h hok
  | block header =>
    obtain ⟨⟨bare, rfl⟩, hok⟩ := hf
    exact openBlock_ensures bare h hok
  | userType header =>
    obtain ⟨rfl, hok⟩ := hf
    have hsaid : s₀.Said (Header.words true (.userType header)) s := h
    refine .seq (openBlock_ensures true hsaid hok) ?_
    exact fun clause s' hwrites => .modify (.pure hwrites)

theorem continuation_ensures (h : s₀.Began t s) (ht : t.IsCode) :
    Ensures (continuation t.lexeme t) s s₀.Writes := by
  refine .get ?_
  split
  · exact .throw
  · refine .modify (.get (.parse (Parse.form_says ⟨ht.raw, h.chained.cons h.read⟩ ht) ?_))
    rintro f r ⟨ws, hf, hline⟩
    exact complete_ensures ((h.said ht hline).of_same rfl rfl) hf

/-! ## Clauses -/

theorem marker_ensures (m : Marker) (first : Bool) (h : s₀.Began t s) (ht : t.is m.text) :
    Ensures (marker m first t) s s₀.Writes := by
  have hwrites : ∀ (c : Clause) (s' : Session), (∀ x, ¬ c.Asks x) → c.endsInput = false →
      s'.reader = s.reader → c.Written s₀.scopes.tags [t] s'.scopes.tags → s₀.Writes c s' := by
    intro c s' hasks hinput hreader hc
    exact Session.writes_of_reads h.chained (by rw [hreader]; exact h.read) hasks hinput hc
  cases m with
  | begin =>
    cases first with
    | true => exact .pure (hwrites _ _ (fun _ => id) rfl rfl (by rw [h.tags]; exact .start _ ht))
    | false => exact .throw
  | newline => exact .pure (hwrites _ _ (fun _ => id) rfl rfl (by rw [h.tags]; exact .newline _ ht))
  | dedent =>
    refine .seq (closeBlock_ensures t s) ?_
    rintro c s' ⟨tag, htags', hcloses, hreader⟩
    refine .pure (hwrites _ _ (fun _ => id) rfl hreader ?_)
    rw [← h.tags, htags']
    exact .dedent ht hcloses
  | indent => exact .throw

/-- Every clause is written by what it read, by induction on the budget. -/
theorem clauseIn_ensures (n : Nat) {t : Token} (h : s₀.Began t s) : Ensures (clauseIn n t) s s₀.Writes := by
  induction n generalizing s₀ s t with
  | zero => exact .throw
  | succ n ih =>
    refine .clauseIn fun first trace hraw => ?_
    have hcode : t.category.isLineMarker = false → t.category ≠ .punctuation → t.IsCode :=
      fun h₁ h₂ => isCode_of_category hraw h₁ h₂
    unfold clauseFrom
    split
    · next m hlex => exact marker_ensures m first ⟨h.chained, h.read, h.tags⟩ (is_of_lexeme_marker hlex)
    · refine .ite (fun hsign => ?_) fun _ => .throw
      exact comment_ensures ⟨h.chained, h.read, h.tags⟩ hsign
    · next hlex =>
      have ht : t.IsCode := hcode (by rw [Token.category, hlex]; rfl) (by rw [Token.category, hlex]; decide)
      have hattribute : Category.ofText t.text = .attributeWord := by
        rw [lexeme_eq hraw] at hlex
        rw [Category.ofText, hlex]
        rfl
      refine .modify (.modify ?_)
      refine .parse (.of_safe (atText_spec _ _)) ?_
      rintro (_ | _) _ ⟨rfl, -⟩
      · refine .parse (next_reads _ _) ?_
        intro after r hread'
        refine .guard fun hafter => ?_
        rw [Bool.not_eq_true, Bool.or_eq_false_iff] at hafter
        have hchained : s.reader.Chained := h.chained.reads h.read.stream
        refine .seq (@ih { s with scopes := s.scopes.forget } _ _ ⟨hchained, hread', rfl⟩) ?_
        rintro c s' ⟨ts, hts, hc, hs', hinput, hrecords⟩
        refine .pure ⟨t :: ts, h.read.stream.trans hts, ?_, hs', hinput, h.read.helpers ▸ hrecords⟩
        rw [← h.tags]
        refine .attributed ht hattribute ?_ hc
        -- The clause behind the attribute begins with the token that was read for it.
        intro u hu
        have hrest : s.stream.rest = after :: r.stream.rest := hread'.stream.1
        have hrest' : s.stream.rest = ts ++ s'.stream.rest := hts.1
        cases ts with
        | nil => cases hu
        | cons v ts =>
          rw [hrest, cons_append] at hrest'
          rw [← Option.some.inj hu, ← (cons.inj hrest').1, ← category_isLineMarker]
          exact hafter.2
      · have hasks : ∀ x : Helper, ¬ x.AskedBy [t.text] := by
          intro x
          rw [askedBy_attribute hattribute]
          exact not_askedBy_nil
        have hsaid : s₀.Said [t.text] s := ⟨h.started ht, .of_none hasks h.read.helpers⟩
        exact openBlock_ensures true (hsaid.of_same rfl rfl) hattribute
    · next hlex =>
      have ht : t.IsCode := hcode (by rw [Token.category, hlex]; rfl) (by rw [Token.category, hlex]; decide)
      rw [lexeme_eq hraw] at hlex
      refine .modify (.modify ?_)
      exact passthrough_ensures ⟨h.chained, h.read, h.tags⟩ ht (Lexeme.text_of_keyword hlex rfl)
    · next hlex =>
      rw [lexeme_eq hraw] at hlex
      have hcase : t.is "case" := is_iff.mpr ⟨hraw, Lexeme.text_of_keyword hlex rfl⟩
      exact .modify (labels_ensures ⟨h.chained, h.read, h.tags⟩ (by rw [hcase, Bool.true_or]))
    · next hlex =>
      rw [lexeme_eq hraw] at hlex
      have hdefault : t.is "default" := is_iff.mpr ⟨hraw, Lexeme.text_of_keyword hlex rfl⟩
      exact .modify (labels_ensures ⟨h.chained, h.read, h.tags⟩ (by rw [hdefault, Bool.or_true]))
    · next hmarker hpunctuation _ _ _ _ =>
      have ht : t.IsCode := by
        refine hcode ?_ fun h => hpunctuation (Lexeme.category_eq_punctuation_iff.mp h)
        rw [category_isLineMarker]
        exact isMarker_of_lexeme_ne hmarker
      exact .modify (continuation_ensures ⟨h.chained, h.read, h.tags⟩ ht)

theorem clause_ensures (h : s₀.Began t s) : Ensures (clause t) s s₀.Writes := Ensures.get (clauseIn_ensures _ h)

end Translate

/-! ## Chains of clauses -/

namespace Session

/-- So is every run, and it has recorded what its clauses ask for. -/
theorem Translates.written {s s' : Session} {cs : List Clause} (h : s.Translates cs s') (hs : s.reader.Chained) :
    (∃ ts, s.stream.Reads ts s'.stream ∧ Clause.AllWritten s.scopes.tags cs ts s'.scopes.tags) ∧
      s.reader.helpers.Records (fun x => ∃ c ∈ cs, c.Asks x) s'.reader.helpers := by
  induction h with
  | refl s => exact ⟨⟨[], Stream.Reads.refl _, .nil _⟩, .of_none (by simp) rfl⟩
  | @step s s₁ s' t rest c cs hrest hclause _ ih =>
    have hbegan : s.Began t (s.start t rest) := ⟨hs, .one hrest, rfl⟩
    obtain ⟨ts, hts, hc, hs₁, hinput, hrecords⟩ := Translate.clause_ensures hbegan _ _ hclause
    obtain ⟨⟨us, hus, hcs⟩, hrecords'⟩ := ih hs₁
    refine ⟨⟨ts ++ us, hts.trans hus, .cons hc (fun h => ?_) hcs⟩, ?_⟩
    · have hnil := hinput h
      rw [hus.1] at hnil
      exact (append_eq_nil_iff.mp hnil).1
    · exact (hrecords.trans hrecords').congr fun x => by simp

end Session

end Offside
