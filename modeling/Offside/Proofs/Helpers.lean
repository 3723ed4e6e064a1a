/-
Helpers are emitted exactly when they are needed.

A helper is in the prelude if a clause recorded it, and the clauses are what the tokens write. So it
can be told from the tokens: the words on a line ask for it or do not (`Helper.AskedBy`).
-/
import Offside.Proofs.Context

set_option autoImplicit false

namespace Offside

open List Token Category SourceHistory LineComment Clause

/-! ## The code of a line -/

variable {t : Token} {tags tags' : List Tag} {words : List Text} {cs : List Token} {comment : Option LineComment}
variable {c : Clause} {codes : List Token}

namespace Token

def codeWords (line : List Token) : List Text :=
  (line.takeWhile fun t => !t.raw && !t.isCommentSign).map text

theorem codeWords_append (hcodes : ∀ t ∈ codes, t.IsCode) (hcomment : WrittenAfter comment cs) :
    codeWords (codes ++ cs) = codes.map text := by
  have hstop : cs.takeWhile (fun t => !t.raw && !t.isCommentSign) = [] := by
    cases cs with
    | nil => rfl
    | cons t cs =>
      rw [takeWhile_cons_of_neg]
      rcases hcomment.mem t mem_cons_self with hsign | hraw
      · simp [hsign]
      · simp [hraw]
  rw [codeWords, takeWhile_append_of_pos, hstop, append_nil]
  intro t ht
  simp [(hcodes t ht).raw, (hcodes t ht).sign]

theorem codeWords_raw (h : t.raw) (line : List Token) : codeWords (t :: line) = [] := by
  rw [codeWords, takeWhile_cons_of_neg (by simp [h])]
  rfl

end Token

namespace Helper

theorem not_askedBy_emptyLine (x : Helper) : ¬ x.AskedBy (codeWords []) := not_askedBy_nil

/-- Attributes before a line ask for nothing. -/
theorem askedBy_attributes {pre : List Text} (hpre : ∀ w ∈ pre, ofText w = .attributeWord)
    (ws : List Text) (x : Helper) : x.AskedBy (pre ++ ws) ↔ x.AskedBy ws := by
  induction pre with
  | nil => rfl
  | cons w pre ih =>
    obtain ⟨hw, hpre⟩ := forall_mem_cons.mp hpre
    rw [cons_append, askedBy_attribute hw, ih hpre]

/-! ## The lines of a token list -/

/-- A line between markers asks for the helper. The tokens `line` were read of the first one. -/
def AskedIn (x : Helper) : List Token → List Token → Prop
  | line, [] => x.AskedBy (codeWords line)
  | line, t :: ts =>
    if t.isMarker then x.AskedBy (codeWords line) ∨ x.AskedIn [] ts else x.AskedIn (line ++ [t]) ts

variable {x : Helper} {line ts us : List Token}

theorem askedIn_nil : ¬ x.AskedIn [] [] := not_askedBy_nil

theorem askedIn_marker (ht : t.isMarker) :
    x.AskedIn line (t :: ts) ↔ x.AskedBy (codeWords line) ∨ x.AskedIn [] ts := by
  rw [AskedIn, if_pos ht]

theorem askedIn_plain (h : ∀ t ∈ ts, t.isMarker = false) : x.AskedIn line (ts ++ us) ↔ x.AskedIn (line ++ ts) us := by
  induction ts generalizing line with
  | nil => simp
  | cons t ts ih =>
    obtain ⟨ht, hts⟩ := forall_mem_cons.mp h
    rw [cons_append, AskedIn, if_neg (by simp [ht]), ih hts, append_assoc, singleton_append]

theorem askedIn_markers (hne : ts ≠ []) (h : ∀ t ∈ ts, t.isMarker) :
    x.AskedIn line (ts ++ us) ↔ x.AskedBy (codeWords line) ∨ x.AskedIn [] us := by
  induction ts generalizing line with
  | nil => exact absurd rfl hne
  | cons t ts ih =>
    obtain ⟨ht, hts⟩ := forall_mem_cons.mp h
    rw [cons_append, askedIn_marker ht]
    by_cases hnil : ts = []
    · subst hnil
      rfl
    · rw [ih hnil hts, or_iff_right x.not_askedBy_emptyLine]

theorem askedIn_end (h : ∀ t ∈ us.head?, t.isMarker) :
    x.AskedIn line us ↔ x.AskedBy (codeWords line) ∨ x.AskedIn [] us := by
  cases us with
  | nil => rw [or_iff_left askedIn_nil]; rfl
  | cons t us =>
    rw [askedIn_marker (h t rfl), askedIn_marker (h t rfl), or_iff_right x.not_askedBy_emptyLine]

end Helper

/-! ## Clauses -/

section

open Helper

variable {x : Helper} {line ts us : List Token}

theorem Token.Codes.askedBy (hcodes : Codes ts words) (hcomment : WrittenAfter comment cs)
    (hline : ∀ t ∈ line, t.IsCode ∧ ofText t.text = .attributeWord) :
    x.AskedBy (codeWords (line ++ (ts ++ cs))) ↔ x.AskedBy words := by
  have hcode : ∀ t ∈ line ++ ts, t.IsCode :=
    forall_mem_append.mpr ⟨fun t ht => (hline t ht).1, hcodes.2⟩
  rw [← append_assoc, codeWords_append hcode hcomment, map_append, hcodes.1]
  refine askedBy_attributes (fun w hw => ?_) words x
  obtain ⟨t, ht, rfl⟩ := mem_map.mp hw
  exact (hline t ht).2

/-- Raw lines ask for nothing. -/
theorem RawWritten.askedIn {lines : List Text} (h : RawWritten lines ts) (hline : ¬ x.AskedBy (codeWords line))
    (hraw : line = [] ∨ ∃ t rest, line = t :: rest ∧ t.raw) : x.AskedIn line (ts ++ us) ↔ x.AskedIn [] us := by
  induction h generalizing line with
  | @close t ht =>
    rw [singleton_append, askedIn_marker (isMarker_of_mark ht), or_iff_right hline]
  | @line t lines ts ht _ ih =>
    have hplain : ∀ u ∈ [t], u.isMarker = false := by simpa using isMarker_of_raw ht
    rw [← singleton_append, append_assoc, askedIn_plain hplain]
    have hfirst : ∃ u rest, line ++ [t] = u :: rest ∧ u.raw := by
      rcases hraw with rfl | ⟨u, rest, rfl, hu⟩
      · exact ⟨t, [], rfl, ht⟩
      · exact ⟨u, rest ++ [t], rfl, hu⟩
    refine ih ?_ (.inr hfirst)
    obtain ⟨u, rest, hsplit, hu⟩ := hfirst
    rw [hsplit, codeWords_raw hu]
    exact not_askedBy_nil
  | @newline t lines ts ht _ ih =>
    rw [cons_append, askedIn_marker (isMarker_of_mark ht), or_iff_right hline]
    exact ih x.not_askedBy_emptyLine (.inl rfl)

/-- A line of code asks for what its words do. -/
theorem Token.Codes.askedIn {m : Token} (us : List Token) (hcodes : Codes ts words)
    (hcomment : WrittenAfter comment cs)
    (hline : ∀ t ∈ line, t.IsCode ∧ ofText t.text = .attributeWord) (hm : m.isMarker) :
    x.AskedIn line (ts ++ (cs ++ m :: us)) ↔ x.AskedBy words ∨ x.AskedIn [] us := by
  rw [← append_assoc, askedIn_plain (hcodes.plain_append hcomment), askedIn_marker hm,
    hcodes.askedBy hcomment hline]

theorem LabelLine.AllWritten.askedIn {lines : List LabelLine} (h : LabelLine.AllWritten lines ts)
    (hline : ∀ t ∈ line, t.IsCode ∧ ofText t.text = .attributeWord) : x.AskedIn line (ts ++ us) ↔
      (∃ l ∈ lines, x.AskedBy l.label.words) ∨ x.AskedIn [] us := by
  induction h generalizing line with
  | @last l codes cs m hl hm =>
    have hsplit := hl.codes.askedIn (x := x) us hl.comment hline (isMarker_of_mark hm)
    rw [askedBy_colon] at hsplit
    simpa using hsplit
  | @more l ls codes cs rest m hl hm _ ih =>
    have hsplit := hl.codes.askedIn (x := x) (rest ++ us) hl.comment hline (isMarker_of_mark hm)
    rw [askedBy_colon, ih (by simp)] at hsplit
    simpa [or_assoc] using hsplit

theorem Helper.askedIn_alone (ht : t.isMarker) (hfirst : line ≠ [] → ∀ u ∈ [t].head?, u.isMarker = false) :
    x.AskedIn line ([t] ++ us) ↔ x.AskedIn [] us := by
  have hnil : line = [] := by
    by_contra hne
    simpa [ht] using hfirst hne t rfl
  subst hnil
  rw [singleton_append, askedIn_marker ht, or_iff_right x.not_askedBy_emptyLine]

theorem Helper.not_askedBy_passthrough (h : words <+: (["passthrough", ":"] : List Text)) : ¬ x.AskedBy words := by
  rcases prefix_cons_iff.mp h with rfl | ⟨rest, rfl, hrest⟩
  · exact not_askedBy_nil
  · have hleads : ("passthrough" : Text).Leads := StatementWord.leads (w := .passthroughWord) (by decide)
    rw [askedBy_leads hleads]
    refine not_within_of_quiet fun w hw => ?_
    rw [mem_singleton.mp (hrest.subset hw)]
    decide

/-- The lines of a clause ask for what its words do. Attributes may have been read before it. -/
theorem Clause.Written.askedIn (h : c.Written tags ts tags')
    (hline : ∀ t ∈ line, t.IsCode ∧ ofText t.text = .attributeWord)
    (hfirst : line ≠ [] → ∀ t ∈ ts.head?, t.isMarker = false) (hinput : c.endsInput → us = [])
    (hnext : (∃ u ∈ ts.getLast?, u.isCommentSign ∨ u.raw) →
      ∀ t ∈ us.head?, t.isMarker) : x.AskedIn line (ts ++ us) ↔ c.Asks x ∨ x.AskedIn [] us := by
  have hnone : Codes [] [] := ⟨rfl, by simp⟩
  -- Each attribute moves to the line that has been read, so this line varies.
  induction h generalizing line with
  | @start tags t ht | @newline tags t ht | @dedent tags tag t c ht hc =>
    rw [askedIn_alone (isMarker_of_mark ht) hfirst]
    simp [Asks]
  | @lineComment tags c ts hc =>
    have hcomment : WrittenAfter (some c) ts := hc
    have hlast : ∃ u ∈ ts.getLast?, u.isCommentSign ∨ u.raw := by
      cases hc with
      | bare hsign => exact ⟨_, rfl, .inl hsign⟩
      | text hsign ht => exact ⟨_, rfl, .inr ht⟩
    have hwords : ¬ x.AskedBy (codeWords (line ++ ts)) := by
      rw [← nil_append ts, hnone.askedBy hcomment hline]
      exact not_askedBy_nil
    have hplain : ∀ t ∈ ts, t.isMarker = false := hnone.plain_append hcomment
    rw [askedIn_plain hplain, askedIn_end (hnext hlast), or_iff_right hwords]
    simp [Asks]
  | @blockComment tags sign t lines ts hsign ht hraw =>
    have hcomment : WrittenAfter (some _) [sign] := LineComment.Written.bare hsign
    have hopened := hnone.askedIn (x := x) (ts ++ us) hcomment hline (isMarker_of_mark ht)
    rw [or_iff_right not_askedBy_nil, hraw.askedIn x.not_askedBy_emptyLine (.inl rfl)] at hopened
    simpa [Asks] using hopened
  | @passthrough tags openers opener t lines ts hopener hopeners ht hraw hwords =>
    have hcodes := codes_concat hopeners hopener
    have hcomment : WrittenAfter none [] := rfl
    have hopened := hcodes.askedIn (x := x) (ts ++ us) hcomment hline (isMarker_of_mark ht)
    rw [or_iff_right (not_askedBy_passthrough hwords), hraw.askedIn x.not_askedBy_emptyLine (.inl rfl)] at hopened
    simpa [Asks] using hopened
  | @simple tags tags' s comment e ts cs es hcodes hs hcomment he =>
    rw [Asks]
    cases he with
    | input =>
      rw [hinput rfl, append_nil, append_nil, ← append_nil (ts ++ cs),
        askedIn_plain (hcodes.plain_append hcomment), or_iff_left askedIn_nil]
      exact hcodes.askedBy hcomment hline
    | line _ ht | closing ht hc =>
      simpa using hcodes.askedIn us hcomment hline (isMarker_of_mark ht)
  | @block tags header comment bare ts cs t hcodes hheader hcomment ht =>
    rw [Asks, ← Header.askedBy_words hheader bare, ← askedBy_colon]
    simpa using hcodes.askedIn us hcomment hline (isMarker_of_mark ht)
  | @labels tags lines ts hlines => exact hlines.askedIn hline
  | @attributed tags tags' t c ts ht hcategory hstart _ ih =>
    have hplain : ∀ u ∈ [t], u.isMarker = false := by simpa using ht.marker
    rw [cons_append, ← singleton_append, askedIn_plain hplain, Asks]
    refine ih ?_ (fun _ => hstart) hinput fun hlast => hnext ?_
    · exact forall_mem_append.mpr ⟨hline, forall_mem_singleton.mpr ⟨ht, hcategory⟩⟩
    · obtain ⟨u, hu, hsort⟩ := hlast
      refine ⟨u, ?_, hsort⟩
      rw [getLast?_cons, hu]
      rfl

theorem Token.Codes.head_raw (hcodes : Codes ts words) (hcomment : WrittenAfter comment cs)
    (hus : ∀ t ∈ us.head?, t.raw = false) : ∀ t ∈ (ts ++ (cs ++ us)).head?, t.raw = false := by
  have hcs : ∀ t ∈ (cs ++ us).head?, t.raw = false := by
    cases comment with
    | none =>
      rw [WrittenAfter] at hcomment
      simpa [hcomment] using hus
    | some c =>
      obtain ⟨sign, rest, rfl, hsign⟩ := LineComment.Written.head hcomment
      simpa using raw_of_isCommentSign hsign
  cases ts with
  | nil => exact hcs
  | cons t ts => simpa using (hcodes.2 t mem_cons_self).raw

theorem Clause.Written.head_raw (h : c.Written tags ts tags') : ∀ t ∈ ts.head?, t.raw = false := by
  have hmarker : ∀ {t : Token} (m : Marker), t.is m.text → ∀ u ∈ [t].head?, u.raw = false := by
    intro t m ht
    simpa using (is_iff.mp ht).1
  cases h with
  | start _ ht | newline _ ht | dedent ht _ => exact hmarker _ ht
  | lineComment _ hc =>
    obtain ⟨sign, rest, rfl, hsign⟩ := hc.head
    simpa using raw_of_isCommentSign hsign
  | blockComment _ hsign _ _ => simpa using raw_of_isCommentSign hsign
  | @passthrough _ openers _ _ _ _ hopener hopeners =>
    cases openers with
    | nil => simpa using hopener.raw
    | cons t openers => simpa using (hopeners t mem_cons_self).raw
  | simple hcodes _ hcomment he =>
    refine hcodes.head_raw hcomment ?_
    cases he with
    | input => simp
    | line _ ht | closing ht _ => exact hmarker _ ht
  | block _ hcodes _ hcomment ht => exact hcodes.head_raw hcomment (hmarker _ ht)
  | labels _ hlines =>
    cases hlines with
    | last hl hm => exact hl.codes.head_raw hl.comment (hmarker _ hm)
    | more hl hm _ => exact hl.codes.head_raw hl.comment (by simpa using (is_iff.mp hm).1)
  | attributed ht _ _ _ => simpa using ht.raw

theorem Clause.AllWritten.head_raw {cs : List Clause} (h : Clause.AllWritten tags cs ts tags') :
    ∀ t ∈ ts.head?, t.raw = false := by
  induction h with
  | nil => simp
  | @cons tags tags' tags'' c cs ts us hc _ _ ih =>
    rw [head?_append]
    intro t ht
    rcases Option.or_eq_some_iff.mp ht with ht | ⟨-, ht⟩
    · exact hc.head_raw t ht
    · exact ih t ht

/-- Tokens ask for what the clauses do that they write. -/
theorem Clause.AllWritten.askedIn {cs : List Clause} (h : Clause.AllWritten tags cs ts tags')
    (hchain : ts.IsChain Adjacent) : x.AskedIn [] ts ↔ ∃ c ∈ cs, c.Asks x := by
  induction h with
  | nil => simpa using askedIn_nil
  | @cons tags tags' tags'' c cs ts us hc hinput hcs ih =>
    have hsplit := isChain_append.mp hchain
    -- A comment ends with its line, as the next clause starts with no raw token.
    have hnext : (∃ u ∈ ts.getLast?, u.isCommentSign ∨ u.raw) →
        ∀ t ∈ us.head?, t.isMarker := by
      rintro ⟨u, hu, hcomment⟩ t ht
      have hadjacent := hsplit.2.2 u hu t ht
      rcases hcomment with hsign | hraw
      · exact (hadjacent.comment hsign).resolve_left (by simp [hcs.head_raw t ht])
      · exact hadjacent.text hraw
    rw [hc.askedIn (by simp) (by simp) hinput hnext, ih hsplit.2.1]
    simp

end

/-! ## Rows -/

namespace Row

open Helper

variable {x : Helper} {row : Row} {rows : List Row}

theorem askedIn_tokensAfter {a : Row} {line : List Token} (hsound : ∀ row ∈ rows, row.Sound) :
    x.AskedIn line (tokensAfter a rows) ↔
      x.AskedBy (codeWords line) ∨ ∃ row ∈ rows, x.AskedBy (codeWords row.tokens) := by
  have hne : ∀ {ms : List Token}, Token.EndsLine ms → ms ≠ [] := by
    rintro ms hms rfl
    obtain ⟨m, hm, -⟩ := hms.last
    cases hm
  induction rows generalizing a line with
  | nil =>
    have hclosing := endsLine_closing a 0
    rw [tokensAfter, ← append_nil (a.closing 0), askedIn_markers (hne hclosing) hclosing.marker]
    simp [askedIn_nil]
  | cons b rows ih =>
    obtain ⟨hb, hrows⟩ := forall_mem_cons.mp hsound
    have hbetween := endsLine_between a b
    rw [tokensAfter, append_assoc, askedIn_markers (hne hbetween) hbetween.marker, askedIn_plain hb.plain,
      nil_append]
    refine (or_congr_right (ih hrows)).trans ?_
    simp

/-- The tokens of rows ask for what the rows do. -/
theorem askedIn_allTokens (hsound : ∀ row ∈ rows, row.Sound) :
    x.AskedIn [] (allTokens rows) ↔ ∃ row ∈ rows, x.AskedBy (codeWords row.tokens) := by
  have hstart : start.isMarker := isMarker_of_mark start_is
  cases rows with
  | nil =>
    rw [allTokens, askedIn_marker hstart]
    simp [askedIn_nil, x.not_askedBy_emptyLine]
  | cons row rows =>
    obtain ⟨hrow, hrows⟩ := forall_mem_cons.mp hsound
    rw [allTokens, cons_append, askedIn_marker hstart, or_iff_right x.not_askedBy_emptyLine,
      askedIn_plain hrow.plain, nil_append, askedIn_tokensAfter hrows]
    simp

theorem Spelled.exists_codes (h : row.Spelled) (hv : row.isVerbatim = false) :
    ∃ codes cs comment, row.tokens = codes ++ cs ∧ (∀ t ∈ codes, t.IsCode) ∧
      WrittenAfter comment cs ∧ codeWords row.tokens = codes.map Token.text := by
  obtain ⟨codes, cs, comment, htokens, hcodes, hcomment⟩ := h.split hv
  have hcode : ∀ t ∈ codes, t.IsCode := fun t ht => (hcodes t ht).1
  refine ⟨codes, cs, comment, htokens, hcode, hcomment, ?_⟩
  rw [htokens, codeWords_append hcode hcomment]

theorem exists_of_isCode {before after : List Token} (hcomment : WrittenAfter comment cs)
    (ht : t.IsCode) (hsplit : codes ++ cs = before ++ t :: after) : ∃ rest, codes = before ++ t :: rest := by
  have hno : t ∉ cs := by
    intro hmem
    rcases hcomment.mem t hmem with hsign | hraw
    · exact absurd (ht.sign.symm.trans hsign) Bool.false_ne_true
    · exact absurd (ht.raw.symm.trans hraw) Bool.false_ne_true
  rcases append_eq_append_iff.mp hsplit with ⟨rest, -, rfl⟩ | ⟨rest, rfl, hrest⟩
  · exact absurd (mem_append_right _ mem_cons_self) hno
  · cases rest with
    | nil => exact absurd (mem_cons.mpr (.inl rfl)) (show t ∉ t :: after from hrest ▸ hno)
    | cons u rest =>
      obtain ⟨rfl, -⟩ := cons.inj hrest
      exact ⟨rest, rfl⟩

/-- The first word behind the attributes, if it is a keyword and not the sign of a comment. -/
theorem Spelled.word?_iff (h : row.Spelled) (hv : row.isVerbatim = false) {k : Keyword} {w : Text}
    (hk : k.text? = some w) : row.word? = some w ↔ lead? (codeWords row.tokens) = some w := by
  obtain ⟨codes, cs, comment, htokens, hcodes, hcomment, hwords⟩ := h.exists_codes hv
  rw [hwords, word?, heads, htokens]
  clear htokens hwords
  induction codes with
  | nil =>
    cases comment with
    | none =>
      rw [WrittenAfter] at hcomment
      rw [hcomment]
      rfl
    | some c =>
      obtain ⟨sign, rest, rfl, hsign⟩ := LineComment.Written.head hcomment
      have hlexeme := lexeme_of_isCommentSign hsign
      rw [nil_append, dropWhile_cons_of_neg (by rw [Token.category, hlexeme]; decide)]
      refine iff_of_false (fun hhead => ?_) (Option.some_ne_none w).symm
      rw [lexeme_eq (raw_of_isCommentSign hsign), Option.some.inj hhead, Lexeme.ofText_text hk] at hlexeme
      cases hlexeme
  | cons t codes ih =>
    obtain ⟨ht, hcodes⟩ := forall_mem_cons.mp hcodes
    have hcategory : t.category = ofText t.text := category_eq ht.raw
    rw [map_cons, cons_append]
    by_cases hattribute : t.category = .attributeWord
    · rw [dropWhile_cons_of_pos (by simpa using hattribute), ih hcodes, lead?, lead?,
        dropWhile_cons_of_pos (by simpa [← hcategory] using hattribute)]
    · rw [dropWhile_cons_of_neg (by simpa using hattribute), lead?_cons hcategory.symm hattribute]
      rfl

/-- A word of the row tests for membership: an `in` that is neither the first one of a `for` header,
nor behind a dot, nor on the line of an import. -/
def TestsMembership (row : Row) : Prop :=
  row.word? ≠ some ("import" : Text) ∧ row.word? ≠ some ("from" : Text) ∧
    ∃ before t after, row.tokens = before ++ t :: after ∧ t.is "in" ∧
      (∀ u ∈ before.getLast?, u.is "." = false) ∧
      (row.word? = some ("for" : Text) → ∃ u ∈ before, u.is "in")

/-- A row asks for `contains` if it tests membership. -/
theorem Spelled.testsMembership_iff (h : row.Spelled) (hv : row.isVerbatim = false) :
    row.TestsMembership ↔ Helper.contains.AskedBy (codeWords row.tokens) := by
  have himport := h.word?_iff hv (k := .libraryWord .importWord) rfl
  have hfrom := h.word?_iff hv (k := .libraryWord .fromWord) rfl
  have hfor := h.word?_iff hv (k := .statement .forWord) rfl
  refine and_congr (not_congr himport) (and_congr (not_congr hfrom) ?_)
  obtain ⟨codes, cs, comment, htokens, hcodes, hcomment, hwords⟩ := h.exists_codes hv
  have his : ∀ t ∈ codes, ∀ w : Text, t.is w ↔ t.text = w := by
    intro t ht w
    rw [is_iff, and_iff_right (hcodes t ht).raw]
  rw [hwords] at hfor ⊢
  rw [htokens]
  constructor
  · rintro ⟨before, t, after, hsplit, ht, hdot, hsecond⟩
    -- The word is code, so it stands before the comment.
    obtain ⟨rest, rfl⟩ := exists_of_isCode hcomment (isCode_of_is ht (by rfl)) hsplit
    have hbefore : ∀ u ∈ before, ∀ w : Text, u.is w ↔ u.text = w :=
      fun u hu => his u (mem_append_left _ hu)
    refine ⟨before.map Token.text, rest.map Token.text, ?_, fun hlast => ?_, fun hw => ?_⟩
    · rw [map_append, map_cons, (is_iff.mp ht).2]
    · rw [getLast?_map] at hlast
      obtain ⟨u, hu, htext⟩ := Option.map_eq_some_iff.mp hlast
      have hno := hdot u hu
      rw [(hbefore u (mem_of_getLast? hu) _).mpr htext] at hno
      cases hno
    · obtain ⟨u, hu, hin⟩ := hsecond (hfor.mpr hw)
      exact mem_map.mpr ⟨u, hu, (hbefore u hu _).mp hin⟩
  · rintro ⟨before, after, hsplit, hdot, hsecond⟩
    obtain ⟨front, rest, rfl, rfl, hrest⟩ := map_eq_append_iff.mp hsplit
    obtain ⟨t, after, rfl, ht, rfl⟩ := map_eq_cons_iff.mp hrest
    have hfront : ∀ u ∈ front, ∀ w : Text, u.is w ↔ u.text = w :=
      fun u hu => his u (mem_append_left _ hu)
    refine ⟨front, t, after ++ cs, by simp, ?_, fun u hu => ?_, fun hw => ?_⟩
    · exact (his t (by simp) _).mpr ht
    · rw [Bool.eq_false_iff]
      intro hu'
      refine hdot ?_
      rw [getLast?_map, hu]
      exact congrArg some ((hfront u (mem_of_getLast? hu) _).mp hu')
    · obtain ⟨u, hu, hin⟩ := mem_map.mp (hsecond (hfor.mp hw))
      exact ⟨u, hu, (hfront u hu _).mpr hin⟩

/-- A row asks for `range` if it has two dots. -/
theorem Spelled.range_iff (h : row.Spelled) (hv : row.isVerbatim = false) :
    Helper.range.AskedBy (codeWords row.tokens) ↔ ∃ t ∈ row.tokens, t.is ".." := by
  obtain ⟨codes, cs, comment, htokens, hcodes, hcomment, hwords⟩ := h.exists_codes hv
  rw [AskedBy, hwords, htokens]
  constructor
  · intro hmem
    obtain ⟨t, ht, htext⟩ := mem_map.mp hmem
    exact ⟨t, mem_append_left _ ht, is_iff.mpr ⟨(hcodes t ht).raw, htext⟩⟩
  · rintro ⟨t, ht, his⟩
    obtain ⟨before, after, hsplit⟩ := append_of_mem ht
    obtain ⟨rest, rfl⟩ := exists_of_isCode hcomment (isCode_of_is his (by rfl)) hsplit
    exact mem_map.mpr ⟨t, by simp, (is_iff.mp his).2⟩

end Row

/-! ## Helpers of an accepted source -/

section

variable {unit source : Text} {h : History} {scanned : Scanned}

theorem spelled_of_mem_wordRows {row : Row} (hscan : (scan unit source).outcome = .ok scanned)
    (hrow : row ∈ source.wordRows scanned.unit) : row.Spelled ∧ row.isVerbatim = false := by
  obtain ⟨before, after, hrows⟩ := append_of_mem hrow
  exact spelled_of_wordRows hscan hrows

/-- The code of a source is on its rows of words. -/
theorem mem_scanned_iff (hscan : (scan unit source).outcome = .ok scanned) (ht : t.IsCode) :
    t ∈ scanned.tokens ↔ ∃ row ∈ source.wordRows scanned.unit, t ∈ row.tokens := by
  obtain ⟨rows, htokens, hlaid, -, hfilter⟩ := scan_wordRows hscan
  rw [htokens, ← hfilter]
  constructor
  · intro hmem
    obtain hmarker | ⟨row, hrow, hmem⟩ := Row.mem_allTokens hmem
    · exact absurd (ht.marker.symm.trans hmarker) Bool.false_ne_true
    · refine ⟨row, mem_filter.mpr ⟨hrow, ?_⟩, hmem⟩
      cases row with
      | words => rfl
      | verbatim line level text =>
        rw [mem_singleton.mp hmem] at ht
        exact absurd ht.raw Bool.noConfusion
  · rintro ⟨row, hrow, hmem⟩
    obtain ⟨before, after, rfl⟩ := append_of_mem (mem_filter.mp hrow).1
    obtain ⟨ts, hall, -⟩ := hlaid.exists_at
    rw [hall]
    exact mem_append_right _ (mem_append_left _ hmem)

/-- The helpers of a source are what its rows ask for, without repetition. -/
theorem SourceHistory.Accepts.helpers (haccepts : Accepts unit source h)
    (hscan : (scan unit source).outcome = .ok scanned) : h.helpers.Nodup ∧
      ∀ x, x ∈ h.helpers ↔ ∃ row ∈ source.wordRows scanned.unit, x.AskedBy (codeWords row.tokens) := by
  obtain ⟨_, hscan', -, hwritten⟩ := haccepts.written
  obtain rfl := Except.ok.inj (hscan.symm.trans hscan')
  obtain ⟨_, hscan', rfl⟩ := history_eq haccepts.1
  obtain rfl := Except.ok.inj (hscan.symm.trans hscan')
  have hchained : (Session.ofTokens scanned.tokens).reader.Chained :=
    (chain_of_scan hscan).imp fun t u hadjacent => hadjacent.raw
  have hrecords := ((History.translates_of_stop? haccepts.2).2.written hchained).2
  obtain ⟨rows, htokens, hlaid, -, hfilter⟩ := scan_wordRows hscan
  refine ⟨hrecords.nodup .nil, fun x => ?_⟩
  · have hnone : x ∉ (Session.ofTokens scanned.tokens).reader.helpers.used := not_mem_nil
    refine (hrecords.mem_iff x).trans ?_
    rw [or_iff_right hnone, ← hwritten.askedIn (chain_of_scan hscan), htokens, Row.askedIn_allTokens hlaid.sound,
      ← hfilter]
    -- A verbatim line asks for nothing.
    constructor
    · rintro ⟨row, hrow, hasked⟩
      refine ⟨row, mem_filter.mpr ⟨hrow, ?_⟩, hasked⟩
      cases row with
      | words => rfl
      | verbatim line level text =>
        rw [Row.tokens, codeWords_raw rfl] at hasked
        exact absurd hasked Helper.not_askedBy_nil
    · rintro ⟨row, hrow, hasked⟩
      exact ⟨row, (mem_filter.mp hrow).1, hasked⟩

/-- A helper is emitted exactly when a line of the source needs it. -/
theorem helpers_when_needed (haccepts : SourceHistory.Accepts unit source h) :
    ∃ scanned, (scan unit source).outcome = .ok scanned ∧ h.helpers.Nodup ∧ (h.helpers = [] → h.preludeText = []) ∧
      (h.helpers ≠ [] →
        h.preludeText = Text.join "\n" (h.helpers.map (Helper.definition scanned.unit)) ++ "\n") ∧
      (Helper.print ∈ h.helpers ↔ ∃ row ∈ source.wordRows scanned.unit, row.word? = some ("print" : Text)) ∧
      (Helper.range ∈ h.helpers ↔ ∃ t ∈ scanned.tokens, t.is ".." = true) ∧
      (Helper.contains ∈ h.helpers ↔ ∃ row ∈ source.wordRows scanned.unit, row.TestsMembership) := by
  obtain ⟨scanned, hscan, hunit, -⟩ := haccepts.written
  obtain ⟨hnodup, hmem⟩ := haccepts.helpers hscan
  have hspelled : ∀ row ∈ source.wordRows scanned.unit, row.Spelled ∧ row.isVerbatim = false :=
    fun row hrow => spelled_of_mem_wordRows hscan hrow
  refine ⟨scanned, hscan, hnodup, fun hnil => ?_, fun hne => ?_, ?_, ?_, ?_⟩
  · exact if_pos (List.isEmpty_iff.mpr hnil)
  · rw [← hunit]
    exact if_neg (mt List.isEmpty_iff.mp hne)
  · rw [hmem]
    refine exists_congr fun row => and_congr_right fun hrow => ?_
    obtain ⟨hrow, hv⟩ := hspelled row hrow
    exact (hrow.word?_iff hv (k := .statement .printWord) rfl).symm
  · rw [hmem]
    constructor
    · rintro ⟨row, hrow, hasked⟩
      obtain ⟨t, ht, his⟩ := ((hspelled row hrow).1.range_iff (hspelled row hrow).2).mp hasked
      exact ⟨t, (mem_scanned_iff hscan (Token.isCode_of_is his (by rfl))).mpr ⟨row, hrow, ht⟩, his⟩
    · rintro ⟨t, ht, his⟩
      obtain ⟨row, hrow, ht⟩ := (mem_scanned_iff hscan (Token.isCode_of_is his (by rfl))).mp ht
      exact ⟨row, hrow, ((hspelled row hrow).1.range_iff (hspelled row hrow).2).mpr ⟨t, ht, his⟩⟩
  · rw [hmem]
    refine exists_congr fun row => and_congr_right fun hrow => ?_
    obtain ⟨hrow, hv⟩ := hspelled row hrow
    exact (hrow.testsMembership_iff hv).symm

/-- A loop over a member called `in`, with a membership test in it that is printed. The range is in
a comment only. -/
theorem helpers_when_needed_membership : ∃ (source : Text) (h : History) (scanned : Scanned),
      source = ("for x in a.in:\n  #\n    y in ..\n  private print x in c\n" : String) ∧
      SourceHistory.Accepts [] source h ∧ (scan [] source).outcome = .ok scanned ∧ h.helpers = [.print, .contains] ∧
      h.preludeText = Text.join "\n" [Helper.print.definition scanned.unit, Helper.contains.definition scanned.unit] ++
        "\n" ∧
      (∃ row ∈ source.wordRows scanned.unit, row.word? = some ("print" : Text)) ∧
      (¬ ∃ t ∈ scanned.tokens, t.is ".." = true) ∧ ∃ row ∈ source.wordRows scanned.unit, row.TestsMembership := by
  have hrun : ((SourceHistory.run [] "for x in a.in:\n  #\n    y in ..\n  private print x in c\n").history
      |>.toOption.map fun h => (h.stop?, h.helpers)) = some (none, [.print, .contains]) := by
    decide +kernel
  obtain ⟨h, haccepts, hhelpers⟩ := SourceHistory.accepts_of_map hrun
  obtain ⟨scanned, hscan, -, -, hprelude, hprint, hrange, hcontains⟩ := helpers_when_needed haccepts
  rw [hhelpers] at hprelude hprint hrange hcontains
  exact ⟨_, h, scanned, rfl, haccepts, hscan, hhelpers, hprelude (by decide), hprint.mp (by decide),
    fun hsome => absurd (hrange.mpr hsome) (by decide), hcontains.mp (by decide)⟩

end

end Offside
