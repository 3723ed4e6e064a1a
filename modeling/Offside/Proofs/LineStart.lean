/-
Where clauses start.

Every line of words of an accepted source starts a clause, with one exception: case labels without a
body are one clause with the label that has one.
-/
import Offside.Proofs.Context
import Offside.Proofs.Layout.Insertion
import Offside.Proofs.PartialResult

set_option autoImplicit false

namespace Offside

open List Token Session Outline

/-! ## Case labels -/

namespace Token

variable {a b p us : List Token} {m : Token}

def isLabelWord (t : Token) : Bool := t.is "case" || t.is "default"

def Labels (line : List Token) : Prop :=
  ∃ attributes t ts, line = attributes ++ t :: ts ∧ (∀ u ∈ attributes, u.category = .attributeWord) ∧
    t.isLabelWord

theorem not_labels_nil : ¬ Labels [] := by
  rintro ⟨attributes, t, ts, hnil, -⟩
  exact append_ne_nil_of_right_ne_nil _ (cons_ne_nil t ts) hnil.symm

/-- Between the tokens a line of words starts. -/
structure Breaks (a b : List Token) : Prop where
  marker : ∃ v ∈ a.getLast?, v.isMarker
  word : ∃ t ∈ b.head?, t.isMarker = false ∧ t.raw = false

theorem Breaks.ne_nil (h : Breaks a b) : b ≠ [] := by
  rintro rfl
  obtain ⟨t, ht, -⟩ := h.word
  cases ht

theorem Breaks.not_plain (h : Breaks a b) (hplain : ∀ t ∈ a, t.isMarker = false) : False := by
  obtain ⟨v, hv, hmarker⟩ := h.marker
  rw [hplain v (mem_of_getLast? hv)] at hmarker
  cases hmarker

theorem Breaks.of_append (h : Breaks (p ++ a) b) (ha : a ≠ []) : Breaks a b := by
  refine ⟨?_, h.word⟩
  rw [← getLast?_append_of_ne_nil p ha]
  exact h.marker

theorem Breaks.split (h : Breaks a b) (hp : ∀ t ∈ p, t.isMarker = false) (hsplit : p ++ m :: us = a ++ b) :
    ∃ a', a = p ++ m :: a' ∧ us = a' ++ b := by
  rcases append_eq_append_iff.mp hsplit with ⟨c, rfl, hc⟩ | ⟨c, rfl, hc⟩
  · cases c with
    | nil =>
      rw [append_nil] at h
      exact (h.not_plain hp).elim
    | cons x c =>
      obtain ⟨rfl, rfl⟩ := cons.inj hc
      exact ⟨c, rfl, rfl⟩
  · exact (h.not_plain fun t ht => hp t (mem_append_left _ ht)).elim

theorem Breaks.not_line (h : Breaks a b) (hp : ∀ t ∈ p, t.isMarker = false) (hsplit : p ++ [m] = a ++ b) : False := by
  obtain ⟨a', -, hnil⟩ := h.split hp hsplit
  exact h.ne_nil (append_eq_nil_iff.mp hnil.symm).2

end Token

variable {unit : Text} {m : Token} {steps : List Step} {us : List Token}

theorem LabelLine.Written.isLabelWord {l : LabelLine} {ts cs : List Token} (h : l.Written ts cs m) :
    ∃ t us, ts = t :: us ∧ t.isLabelWord := by
  obtain ⟨t, us, rfl, hraw, htext⟩ := h.exists_head
  refine ⟨t, us, rfl, ?_⟩
  rw [Token.isLabelWord, Token.is, Token.is, hraw]
  rcases htext with htext | htext <;> rw [htext] <;> rfl

/-! ## Clauses that go on over a line -/

variable {row : Row} {s s' : Session}

section

variable {o : Outline} {a b ts : List Token}

theorem Outline.line_of_isMarker {t : Token} (h : t.isMarker) (o : Outline) : (o.read t).line = [] := by
  obtain ⟨m, hm⟩ := isMarker_iff.mp h
  cases m with
  | begin => rw [read_begin hm]
  | newline => rw [read_newline hm]
  | indent => rw [read_indent hm]
  | dedent => rw [read_dedent hm]

theorem Outline.line_of_getLast? (h : ∃ m ∈ ts.getLast?, m.isMarker) (o : Outline) : (o.run ts).line = [] := by
  obtain ⟨m, hm, hmarker⟩ := h
  obtain ⟨init, rfl⟩ := getLast?_eq_some_iff.mp hm
  rw [run_append, run_cons, run_nil]
  exact line_of_isMarker hmarker _

def Outline.Continued (o : Outline) (ts : List Token) : Prop :=
  ∃ init m, ts = init ++ [m] ∧ m.is Marker.newline.text ∧ Labels (o.run init).line

/-- No line of code starts in a raw block. -/
theorem RawWritten.not_breaks {lines : List Text} {p : List Token} (h : RawWritten lines us) (hbreaks : Breaks a b)
    (hp : ∀ t ∈ p, t.isMarker = false) (hsplit : p ++ m :: us = a ++ b) : False := by
  obtain ⟨a', -, rfl⟩ := hbreaks.split hp hsplit
  obtain ⟨t, ht, hplain, hraw⟩ := hbreaks.word
  rcases h.mem t (mem_append_right _ (mem_of_mem_head? ht)) with h | h
  · rw [hraw] at h
    cases h
  · rw [hplain] at h
    cases h

/-- Labels that are one clause go on over a line only where one label comes after another. -/
theorem LabelLine.AllWritten.goes_on {lines : List LabelLine} (h : LabelLine.AllWritten lines ts)
    (hbreaks : Breaks a b) (hsplit : ts = a ++ b) (hline : ∀ u ∈ o.line, u.category = .attributeWord) :
    o.Continued a ∧ ∃ t ∈ b.head?, t.isLabelWord := by
  induction h generalizing a o with
  | @last l ts cs m h hm =>
    rw [← append_assoc] at hsplit
    exact (hbreaks.not_line (h.codes.plain_append h.comment) hsplit).elim
  | @more l ls ts cs us m h hm hls ih =>
    have hplain := h.codes.plain_append h.comment
    rw [← append_assoc] at hsplit
    obtain ⟨a', rfl, rfl⟩ := hbreaks.split hplain hsplit
    cases a' with
    | nil =>
      -- The line starts behind the first label.
      refine ⟨⟨ts ++ cs, m, rfl, hm, ?_⟩, ?_⟩
      · obtain ⟨t, us, rfl, ht⟩ := h.isLabelWord
        rw [run_plain hplain]
        exact ⟨o.line, t, us ++ cs, rfl, hline, ht⟩
      · obtain ⟨l', label, cs', m', rest, hus, hwritten⟩ := hls.head
        obtain ⟨t, us, rfl, ht⟩ := hwritten.isLabelWord
        rw [nil_append] at hus
        rw [hus]
        exact ⟨t, rfl, ht⟩
    | cons x a' =>
      have hbreaks' : Breaks (x :: a') b := by
        rw [append_cons] at hbreaks
        exact hbreaks.of_append (cons_ne_nil x a')
      have hnil : (o.run (ts ++ cs ++ [m])).line = [] := by
        refine line_of_getLast? ⟨m, ?_, isMarker_of_mark hm⟩ o
        exact getLast?_concat
      have hline' : ∀ u ∈ (o.run (ts ++ cs ++ [m])).line, u.category = .attributeWord := by
        rw [hnil]
        exact forall_mem_nil _
      obtain ⟨⟨init, m', hinit, hm', hlabels⟩, hfirst⟩ := ih hbreaks' rfl hline'
      refine ⟨⟨ts ++ cs ++ m :: init, m', by rw [hinit]; simp, hm', ?_⟩, hfirst⟩
      rw [append_cons, Outline.run_append]
      exact hlabels

/-- A clause goes on over a line of words only where one label comes after another. -/
theorem Clause.Written.goes_on {c : Clause} {tags tags' : List Tag} (h : c.Written tags ts tags')
    (hbreaks : Breaks a b) (hsplit : ts = a ++ b)
    (hline : (∀ u ∈ o.line, u.category = .attributeWord) ∨ ∀ t ∈ ts.head?, t.isMarker) :
    o.Continued a ∧ ∃ t ∈ b.head?, t.isLabelWord := by
  have hnil : ∀ t ∈ ([] : List Token), t.isMarker = false := forall_mem_nil _
  induction h generalizing a o with
  | start tags ht | newline tags ht | dedent ht hc => exact (hbreaks.not_line hnil hsplit).elim
  | @lineComment tags c ts h =>
    have hwritten : LineComment.WrittenAfter (some c) ts := h
    refine (hbreaks.not_plain fun t ht => hwritten.plain t ?_).elim
    rw [hsplit]
    exact mem_append_left _ ht
  | @blockComment tags sign t lines ts hsign ht h =>
    have hplain : ∀ u ∈ [sign], u.isMarker = false := by
      simpa using isMarker_of_isCommentSign hsign
    exact (h.not_breaks hbreaks hplain hsplit).elim
  | @passthrough tags openers opener t lines ts hopener hopeners ht h hwords =>
    rw [append_cons] at hsplit
    exact (h.not_breaks hbreaks (codes_concat hopeners hopener).plain hsplit).elim
  | @simple tags tags' s comment e ts cs es hcodes hs hcomment he =>
    have hplain := hcodes.plain_append hcomment
    rw [← append_assoc] at hsplit
    cases he with
    | input =>
      rw [append_nil] at hsplit
      refine (hbreaks.not_plain fun t ht => hplain t ?_).elim
      rw [hsplit]
      exact mem_append_left _ ht
    | line tags ht | closing ht hc => exact (hbreaks.not_line hplain hsplit).elim
  | block tags hcodes hheader hcomment ht =>
    rw [← append_assoc] at hsplit
    exact (hbreaks.not_line (hcodes.plain_append hcomment) hsplit).elim
  | @labels tags lines ts h =>
    refine h.goes_on hbreaks hsplit ?_
    obtain ⟨l, label, cs, m, rest, rfl, hwritten⟩ := h.head
    exact line_of_plain hline (hwritten.codes.ne_nil (by simp)) hwritten.codes.plain
  | @attributed tags tags' t c ts ht hcategory hfirst h ih =>
    rw [← category_eq ht.raw] at hcategory
    have hattributes : ∀ u ∈ o.line, u.category = .attributeWord := by
      rw [← singleton_append] at hline
      exact line_of_plain hline (cons_ne_nil _ _) (by simpa using ht.marker)
    -- The line does not start behind the attribute, so it starts within the clause behind it.
    cases a with
    | nil => exact (hbreaks.not_plain hnil).elim
    | cons x a =>
      obtain ⟨rfl, htail⟩ := cons.inj hsplit
      have hbreaks' : Breaks a b := by
        cases a with
        | nil => exact (hbreaks.not_plain (by simpa using ht.marker)).elim
        | cons y a => exact Breaks.of_append (p := [t]) hbreaks (cons_ne_nil y a)
      have hline' : ∀ u ∈ (o.read t).line, u.category = .attributeWord := by
        rw [read_plain ht.marker]
        exact forall_mem_append.mpr ⟨hattributes, by simpa using hcategory⟩
      obtain ⟨⟨init, m, rfl, hm, hlabels⟩, hword⟩ := ih hbreaks' htail (.inl hline')
      exact ⟨⟨t :: init, m, rfl, hm, hlabels⟩, hword⟩

/-! ## Steps that start lines -/

namespace Session

/-- A chain of steps to the end of the input has a step that starts where a line of words does,
unless this is a label behind another one. -/
theorem Runs.starts (h : s.Runs steps s') (hend : s'.stream.rest = []) (hchain : s.stream.rest.IsChain Adjacent)
    (hline : o.line = [] ∨ ∀ u ∈ s.stream.rest.head?, u.raw ∨ u.isMarker)
    (hsplit : s.stream.rest = a ++ b) (hbreaks : a = [] ∨ Breaks a b) :
    (∃ before after s₁, steps = before ++ after ∧ s.Runs before s₁ ∧ s₁.Runs after s' ∧ s₁.stream.rest = b) ∨
    o.Continued a ∧ ∃ t ∈ b.head?, t.isLabelWord := by
  induction h generalizing a o with
  | nil s =>
    rw [hend] at hsplit
    obtain ⟨rfl, rfl⟩ := append_eq_nil_iff.mp hsplit.symm
    exact .inl ⟨[], [], s, rfl, .nil s, .nil s, hend⟩
  | @cons s s₁ s' t rest c steps hrest hclause h ih =>
    rcases hbreaks with rfl | hbreaks
    · exact .inl ⟨[], _, s, rfl, .nil s, .cons hrest hclause h, hsplit⟩
    obtain ⟨ts, hts, hwritten, hfirst, hchain₁, hline₁⟩ := clause_line hrest hclause hchain hline
    rcases append_eq_append_iff.mp (hts.1.symm.trans hsplit) with ⟨a', rfl, hrest₁⟩ | ⟨b', rfl, hb⟩
    · -- The clause ends before the line starts.
      have hbreaks₁ : a' = [] ∨ Breaks a' b := by
        cases a' with
        | nil => exact .inl rfl
        | cons x a' => exact .inr (hbreaks.of_append (cons_ne_nil x a'))
      rcases ih hend hchain₁ hline₁ hrest₁ hbreaks₁ with
        ⟨before, after, s₂, rfl, hbefore, hafter, hb⟩ | ⟨⟨init, m, rfl, hm, hlabels⟩, hword⟩
      · exact .inl ⟨_ :: before, after, s₂, rfl, .cons hrest hclause hbefore, hafter, hb⟩
      · refine .inr ⟨⟨ts ++ init, m, by rw [append_assoc], hm, ?_⟩, hword⟩
        rw [Outline.run_append]
        exact hlabels
    · -- The clause goes on, and so its line is a label unless the line starts just behind the clause.
      cases b' with
      | nil =>
        rw [append_nil] at hts hwritten
        exact .inl ⟨[⟨t, .ok c, s₁⟩], steps, s₁, rfl, .cons hrest hclause (.nil s₁), h, hb.symm⟩
      | cons y b' =>
        have hbreaks' : Breaks a (y :: b') := by
          refine ⟨hbreaks.marker, ?_⟩
          have hword := hbreaks.word
          rw [hb] at hword
          exact hword
        obtain ⟨hlabels, hword⟩ := hwritten.goes_on hbreaks' rfl hfirst
        refine .inr ⟨hlabels, ?_⟩
        rw [hb]
        exact hword

/-- Every step starts with a token that the run reads. -/
theorem Runs.token_mem (h : s.Runs steps s') (hs : s.Nested 0) (hreads : s.stream.Reads ts s'.stream) :
    ∀ step ∈ steps, step.token ∈ ts := by
  induction h generalizing ts with
  | nil => exact forall_mem_nil _
  | @cons s s₁ s' t rest c steps hrest hclause h ih =>
    obtain ⟨h₁, us, hus⟩ := hs.clause hrest hclause
    obtain ⟨-, vs, hvs⟩ := h.reads h₁
    obtain rfl : ts = (t :: us) ++ vs :=
      append_cancel_right (hreads.1.symm.trans (hus.trans hvs).1)
    refine forall_mem_cons.mpr ⟨mem_cons_self, fun step hstep => ?_⟩
    exact mem_append_right _ (ih h₁ hvs step hstep)

end Session

end

/-! ## Labels in a source -/

namespace Layout

open Reading (content indentation)

def lastFilled (lines : List Text) : Option Text := lines.reverse.find? fun line => !(content line).isEmpty

def isLabel (line : Text) : Bool :=
  match Word.cut (content line) with
  | .ok words => (Row.words 0 0 words).word?.any fun w => w == ("case" : Text) || w == ("default" : Text)
  | .error _ => false

def followsLabel (above : List Text) (line : Text) : Bool :=
  isLabel line && (lastFilled above).any fun last => isLabel last && indentation last == indentation line

end Layout

theorem Word.tokens_eq_map (line level : Nat) (w : Word) :
    w.tokens line level = (w.tokens 0 0).map fun t => { t with line := line, level := level } := by
  rcases w with ⟨rule, text⟩
  cases rule with
  | comment =>
    simp only [Word.tokens]
    split <;> rfl
  | _ => rfl

namespace Row

theorem word?_words (line level : Nat) (words : List Word) :
    (Row.words line level words).word? = (Row.words 0 0 words).word? := by
  have htokens : (Row.words line level words).tokens =
      (Row.words 0 0 words).tokens.map fun t => { t with line := line, level := level } := by
    rw [tokens, tokens, map_flatMap]
    exact flatMap_congr fun w _ => Word.tokens_eq_map line level w
  rw [word?, heads, htokens, dropWhile_map, map_map]
  rfl

theorem word?_of_labels (h : Labels row.tokens) :
    row.word?.any (fun w => w == ("case" : Text) || w == ("default" : Text)) = true := by
  obtain ⟨attributes, t, ts, htokens, hattributes, ht⟩ := h
  rw [word?, heads, htokens, dropWhile_append_of_pos fun u hu => by simpa using hattributes u hu]
  obtain ⟨k, hraw, hk⟩ : ∃ k : Conditional, t.raw = false ∧ (Keyword.conditional k).text? = some t.text ∧
      (t.text == ("case" : Text) || t.text == ("default" : Text)) := by
    rw [Token.isLabelWord, Bool.or_eq_true, is_iff, is_iff] at ht
    rcases ht with ⟨hraw, htext⟩ | ⟨hraw, htext⟩
    · exact ⟨.caseWord, hraw, by rw [htext]; rfl, by rw [htext]; rfl⟩
    · exact ⟨.defaultWord, hraw, by rw [htext]; rfl, by rw [htext]; rfl⟩
  have hcategory : t.category ≠ .attributeWord := by
    rw [category_eq hraw]
    exact Keyword.category_ne_attributeWord hk.1
  rw [dropWhile_cons_of_neg (by simpa using hcategory)]
  exact hk.2

end Row

namespace Reading

open Layout (followsLabel isLabel lastFilled)

variable {v line : Text} {above : List Text} {level : Nat} {words : List Word} {r : Reading}

/-- A row of a label is a label in the text too. -/
theorem isLabel_of_labels {m n : Nat} (hwords : Word.cut (content line) = .ok words)
    (h : Labels (Row.words m n words).tokens) : isLabel line := by
  rw [isLabel, hwords]
  dsimp only
  rw [← Row.word?_words m n]
  exact Row.word?_of_labels h

/-- The row in front of a row, if it is a label and only a newline comes between them. -/
theorem labels_of_continued {a : Row} {rows : List Row} (ha : a.Sound) (hrow : row.isVerbatim = false)
    (hlevel : row.level ≤ a.level + 1) (h : Continued {} (row.tokensBefore (a :: rows))) :
    a.level = row.level ∧ Labels a.tokens := by
  obtain ⟨init, m, hinit, hm, hlabels⟩ := h
  have hstart : (Outline.run {} (a.tokensBefore rows)).line = [] :=
    line_of_getLast? (Row.getLast?_tokensBefore rows a) {}
  rw [Row.tokensBefore, Row.between, hrow, if_neg Bool.false_ne_true, ← append_assoc] at hinit
  by_cases hdeeper : row.level = a.level + 1
  · rw [if_pos hdeeper] at hinit
    obtain ⟨-, hmarker⟩ := append_inj' hinit rfl
    obtain ⟨rfl, -⟩ := cons.inj hmarker
    rw [is_eq_false_of_is (a.marker_is .indent _ _) (by decide)] at hm
    cases hm
  · rw [if_neg hdeeper, Row.closing_eq_dedents, ← append_assoc] at hinit
    obtain ⟨rfl, -⟩ := append_inj' hinit rfl
    rcases eq_nil_or_concat (a.dedents row.level) with hnone | ⟨ds, d, hds⟩
    · have hlength := a.length_dedents row.level
      rw [hnone, length_nil] at hlength
      rw [hnone, append_nil, Outline.run_append, run_plain ha.plain, hstart] at hlabels
      exact ⟨by omega, hlabels⟩
    · -- Behind a dedent there is no label.
      have hd : d.is Marker.dedent.text := by
        refine a.is_dedent_of_mem_dedents row.level d ?_
        rw [hds]
        simp
      have hnil : (Outline.run {} (a.tokensBefore rows ++ a.tokens ++ a.dedents row.level)).line = [] := by
        refine line_of_getLast? ⟨d, ?_, isMarker_of_mark hd⟩ {}
        rw [hds, concat_eq_append, ← append_assoc]
        exact getLast?_concat
      rw [hnil] at hlabels
      exact (not_labels_nil hlabels).elim

/-- A label in front of a line, with only a newline between them, is the line above. -/
theorem Meets.follows_label (h : Meets v above line level words r)
    (hrow : row = .words (above.length + 1) level words) (hcontinued : Continued {} (row.tokensBefore r.rows))
    (hword : ∃ t ∈ (row.tokens ++ us).head?, t.isLabelWord) : followsLabel above line := by
  have hline : isLabel line := by
    refine isLabel_of_labels (m := above.length + 1) (n := level) h.words ?_
    obtain ⟨t, ts, htokens, -⟩ := (sound_words (above.length + 1) h.filled h.words).start rfl
    rw [htokens]
    refine ⟨[], t, ts, rfl, forall_mem_nil _, ?_⟩
    rw [hrow, htokens] at hword
    obtain ⟨_, ⟨⟩, ht⟩ := hword
    exact ht
  rw [followsLabel, hline, Bool.true_and]
  have hfits := h.takes.fits
  -- Neither the start nor a raw line can be the label, so it is a line of words.
  cases hrows : r.rows with
  | nil =>
    obtain ⟨init, m, hinit, -, hlabels⟩ := hcontinued
    have hstart : [] ++ [Row.start] = init ++ [m] := by
      rw [hrows] at hinit
      exact hinit
    obtain ⟨rfl, -⟩ := append_inj' hstart rfl
    exact (not_labels_nil hlabels).elim
  | cons a rows =>
    have ha : a.Sound := h.sound.rows.sound a (by rw [hrows]; exact mem_cons_self)
    rw [hrows] at hfits hcontinued
    obtain ⟨hlevel, hlabels⟩ := labels_of_continued ha (by rw [hrow]; rfl) (by rw [hrow]; exact hfits) hcontinued
    rw [hrow] at hlevel
    cases a with
    | verbatim m n text =>
      obtain ⟨attributes, t, ts, htokens, -, ht⟩ := hlabels
      have hmem : t ∈ (Row.verbatim m n text).tokens := by
        rw [htokens]
        simp
      rw [mem_singleton.mp hmem] at ht
      cases ht
    | words m n ws =>
      obtain ⟨x, hx, hxlevel, hxwords⟩ := h.head (by rw [hrows]; rfl)
      have hsame : indentation x = indentation line := by
        have hn : n = level := hlevel
        rw [← hxlevel.repeated_eq, ← h.takes.isLevel.repeated_eq, h.unit, hn]
      rw [lastFilled, hx, Option.any_some, isLabel_of_labels hxwords hlabels, hsame]
      exact beq_self_eq_true _

end Reading

/-! ## Histories at a line -/

/-- Does the step start on a line above this one? The marker of the start is above every line. -/
def Step.startsAbove (line : Int) (step : Step) : Bool :=
  step.token.is Marker.begin.text || decide (step.token.line < line)

namespace History

def above (h : History) (line : Int) : History := { h with steps := h.steps.takeWhile (Step.startsAbove line) }

def below (h : History) (line : Int) : List Step := h.steps.dropWhile (Step.startsAbove line)

/-- The body is what is rendered above a line and what is below it. -/
theorem body_eq_above (h : History) (line : Int) : h.body = (h.above line).body ++
      (((h.below line).filterMap fun step => step.outcome.toOption).map (Clause.render h.unit)).flatten := by
  have hsteps : h.steps = (h.above line).steps ++ h.below line := takeWhile_append_dropWhile.symm
  have hclauses : h.clauses = (h.above line).clauses ++ (h.below line).filterMap fun step => step.outcome.toOption := by
    rw [clauses, hsteps, filterMap_append]
    rfl
  rw [body, texts, hclauses, map_append, flatten_append]
  rfl

theorem runs_of_stop? {tokens : List Token} (h : (run unit tokens).stop? = none) :
    (ofTokens tokens).Runs (run unit tokens).steps (run unit tokens).final := by
  obtain ⟨hrest, htranslates⟩ := translates_of_stop? h
  obtain ⟨steps, hruns, -⟩ := htranslates.runs
  have hsteps : (run unit tokens).steps = steps :=
    hruns.sequence (nested_ofTokens tokens) (Nat.lt_succ_self _) hrest
  rw [hsteps]
  exact hruns

end History

open Reading in
/-- A line of words splits the steps in those above it and those from it on. -/
theorem SourceHistory.Accepts.split {source line : Text} {above : List Text} {scanned : Scanned} {h : History}
    {level : Nat} {words : List Word} {r : Reading} {after : List Row}
    (haccepts : SourceHistory.Accepts unit source h) (hscan : (scan unit source).outcome = .ok scanned)
    (hmeets : Meets scanned.unit above line level words r) (hrow : row = .words (above.length + 1) level words)
    (htokens : scanned.tokens = row.tokensBefore r.rows ++ (row.tokens ++ row.tokensAfter after))
    (hlabel : Layout.followsLabel above line = false) :
    ∃ s, (ofTokens scanned.tokens).Runs (h.above (above.length + 1)).steps s ∧
      s.Runs (h.below (above.length + 1)) h.final ∧ h.final.stream.rest = [] ∧
      s.stream.rest = row.tokens ++ row.tokensAfter after := by
  obtain ⟨hrun, hstop⟩ := haccepts
  obtain ⟨_, hscan', rfl⟩ := SourceHistory.history_eq hrun
  obtain rfl := Except.ok.inj (hscan.symm.trans hscan')
  have hruns := History.runs_of_stop? hstop
  have hend := (History.translates_of_stop? hstop).1
  have hsound : row.Sound := by
    rw [hrow]
    exact sound_words _ hmeets.filled hmeets.words
  obtain ⟨t, ts, hfirst, hraw⟩ := hsound.start (by rw [hrow]; rfl)
  have hmem : t ∈ row.tokens := by
    rw [hfirst]
    exact mem_cons_self
  have hbreaks : Breaks (row.tokensBefore r.rows) (row.tokens ++ row.tokensAfter after) := by
    refine ⟨Row.getLast?_tokensBefore _ _, t, ?_, hsound.plain t hmem, hraw⟩
    rw [hfirst]
    rfl
  rcases hruns.starts hend (chain_of_scan hscan) (o := {}) (.inl rfl) htokens (.inr hbreaks) with
    ⟨before, behind, s, hsteps, hbefore, hbehind, hrest⟩ | ⟨hcontinued, hword⟩
  · -- The steps before start on lines above, and the next one on this line.
    have habove : ∀ step ∈ before, step.startsAbove (above.length + 1) := by
      have hnested := nested_ofTokens scanned.tokens
      obtain ⟨-, us, hus⟩ := hbefore.reads hnested
      have hus' : us = row.tokensBefore r.rows := by
        have hsplit : scanned.tokens = us ++ s.stream.rest := hus.1
        rw [hrest, htokens] at hsplit
        exact (append_cancel_right hsplit).symm
      intro step hstep
      have hmem := hbefore.token_mem hnested hus step hstep
      rw [hus'] at hmem
      rw [Step.startsAbove, Bool.or_eq_true, decide_eq_true_iff]
      refine (hmeets.line_lt hmem).imp_left fun hstart => ?_
      rw [hstart]
      exact Row.start_is
    have hbelow : ∀ step ∈ behind.head?, step.startsAbove (above.length + 1) = false := by
      cases hbehind with
      | nil => exact fun _ hstep => nomatch hstep
      | @cons _ s₁ _ u rest c steps hrest' hclause h =>
        rintro _ ⟨⟩
        rw [hrest', hfirst] at hrest
        obtain ⟨rfl, -⟩ := cons.inj hrest
        have hline : u.line = (above.length : Int) + 1 := by
          rw [(Row.mem_tokens hmem).2.1, hrow]
          rfl
        rw [Step.startsAbove, is_eq_false_of_isMarker (hsound.plain u hmem), hline]
        simp
    have hstop : behind.takeWhile (Step.startsAbove (above.length + 1)) = [] := by
      cases behind with
      | nil => rfl
      | cons step behind =>
        rw [takeWhile_cons_of_neg]
        rw [hbelow step rfl]
        exact Bool.false_ne_true
    have htake : ((History.run scanned.unit scanned.tokens).above (above.length + 1)).steps = before := by
      change List.takeWhile _ (History.run scanned.unit scanned.tokens).steps = _
      rw [hsteps, takeWhile_append_of_pos habove, hstop, append_nil]
    have hdrop : (History.run scanned.unit scanned.tokens).below (above.length + 1) = behind := by
      have hsplit : before ++ (History.run scanned.unit scanned.tokens).below (above.length + 1) =
          before ++ behind := by
        rw [← hsteps, ← htake]
        exact takeWhile_append_dropWhile
      exact append_cancel_left hsplit
    rw [htake, hdrop]
    exact ⟨s, hbefore, hbehind, hend, hrest⟩
  · rw [hmeets.follows_label hrow hcontinued hword] at hlabel
    cases hlabel

end Offside
