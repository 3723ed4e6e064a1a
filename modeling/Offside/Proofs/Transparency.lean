/-
Comments between the lines of a source.

The clauses are the same up to the comment and from it on. The scanner needs it to have the
indentation of the line below, and the translator needs this line to start a clause.
-/
import Offside.Proofs.LineStart
import Offside.Proofs.Translate.Interlude

set_option autoImplicit false

namespace Offside

open List Text SourceHistory Reading Session

/-! ## The tokens of a block comment -/

variable {level : Nat} {row : Row} {unit source : Text} {h : History} {t : Session} {tokens : List Token}
  {cs es : List Clause}
variable {line : Text} {s s' t₁ : Session} {rows : List Row} {above lines : List Text} {words : List Word}

theorem Row.level_of_copies (h : Forall₂ (Copies level) lines rows) : ∀ row ∈ rows, row.level = level := by
  induction h with
  | nil => exact forall_mem_nil _
  | cons hrow _ ih =>
    obtain ⟨line, rfl⟩ := hrow
    exact forall_mem_cons.mpr ⟨rfl, ih⟩

theorem Row.tokensBefore_opener {opener : Row} {number : Nat} (hopener : opener = .words number level words)
    (hne : lines ≠ []) (h : Forall₂ (Copies (level + 1)) lines rows)
    (hrow : row.isVerbatim = false ∧ row.level = level) (before : List Row) :
    ∃ (ts : List Token) (newline : Token), row.tokensBefore (rows.reverse ++ opener :: before) =
        row.tokensBefore before ++ (opener.tokens ++ opener.marker .indent (level + 1) 1 :: (ts ++ [newline])) ∧
      RawWritten lines ts ∧ newline.is Marker.newline.text ∧ newline.level = level := by
  obtain ⟨ts, last, htokens, hlast, hwritten⟩ := opener_tokensAfter words number hne h [row]
  rw [← hopener] at htokens
  have hbetween : last.between row = [last.marker .dedent level 0, last.marker .newline level 0] := by
    rw [between, hrow.1, if_neg Bool.false_ne_true, hrow.2, hlast.2, if_neg (by omega), closing, hlast.2,
      Nat.add_sub_cancel_left]
    rfl
  have hbehind : last.tokensAfter [row] =
      [last.marker .dedent level 0, last.marker .newline level 0] ++ (row.tokens ++ row.tokensAfter []) := by
    rw [← append_assoc, ← hbetween]
    rfl
  have hbefore : opener.tokensBefore before = row.tokensBefore before := by
    refine tokensBefore_congr ?_ ?_ before
    · rw [hopener, hrow.1]
      rfl
    · rw [hopener, hrow.2]
      rfl
  refine ⟨ts ++ [last.marker .dedent level 0], last.marker .newline level 0, ?_,
    hwritten _ (.close (last.marker_is .dedent _ _)), last.marker_is .newline _ _, rfl⟩
  -- Both sides are what comes in front of the row among all tokens.
  have hall := allTokens_reverse (rows.reverse ++ opener :: before) row []
  have hsplit : (rows.reverse ++ opener :: before).reverse ++ [row] = before.reverse ++ opener :: (rows ++ [row]) := by
    simp
  rw [hsplit, allTokens_reverse, htokens, hbehind, hbefore] at hall
  refine append_cancel_right (hall.symm.trans ?_)
  simp

namespace Reading

open Layout (commentSign copyOf margin)

variable {v line : Text} {above : List Text} {level : Nat} {words : List Word} {r : Reading}

/-- A block comment with its lines, of which the first and the last one are not blank. -/
theorem Meets.block {block : List Text} (h : Meets v above line level words r) (number : Nat) (documents : Bool)
    (hne : block ≠ []) (hdeeper : ∀ l ∈ block, (content l).isEmpty = false → margin v level <+: l)
    (hfirst : ∀ l ∈ block.head?, (content l).isEmpty = false)
    (hlast : ∀ l ∈ block.getLast?, (content l).isEmpty = false) (hrow : row.isVerbatim = false ∧ row.level = level) :
    ∃ (q : Reading) (sign opener newline : Token) (ts : List Token),
      readLines number ((indentation line ++ commentSign documents) :: block) r = .ok () q ∧
      q.Takes (indentation line) level ∧
      row.tokensBefore q.rows = row.tokensBefore r.rows ++ sign :: opener :: (ts ++ [newline]) ∧
      (sign.text = commentSign documents ∧ sign.raw = false ∧ sign.level = level) ∧
      opener.is Marker.indent.text ∧ RawWritten (block.map (copyOf v level)) ts ∧
      newline.is Marker.newline.text ∧ newline.level = level := by
  have hindentation := Layout.indentation_comment line documents []
  have hcontent := Layout.content_comment line documents []
  rw [append_nil] at hindentation hcontent
  -- The line is the sign alone, so that a raw block is open below it.
  have hsign : content (indentation line ++ commentSign documents) = commentSign documents ∧
      Word.cut (commentSign documents) = .ok [⟨.comment, commentSign documents⟩] ∧
      (commentSign documents).isEmpty = false ∧ opensRaw (commentSign documents) ∧
      Word.tokens number level ⟨.comment, commentSign documents⟩ =
        [⟨commentSign documents, number, level, 0, false⟩] := by
    rw [hcontent]
    cases documents with
    | true => exact ⟨rfl, Word.cut_comment _, rfl, rfl, rfl⟩
    | false => exact ⟨rfl, Word.cut_comment _, rfl, rfl, rfl⟩
  obtain ⟨hsign, hcut, hfilled, hopens, htokens⟩ := hsign
  rw [← hsign] at hcut hfilled
  have hread := h.above_words number hindentation hfilled hcut
  rw [hsign, withWords, hopens, if_pos rfl] at hread
  obtain ⟨opener, hopener⟩ : ∃ opener, opener = Row.words number level [⟨.comment, commentSign documents⟩] := ⟨_, rfl⟩
  rw [← hopener] at hread
  obtain ⟨rows, q, block', hlines, hunit, hraw, hbase, hrows, hcopies⟩ :=
    readLines_raw (s := { r with rows := opener :: r.rows, raw := some { base := level } }) (number + 1) block h.unit
      (by rw [← h.unit]; exact h.takes.known) hdeeper rfl rfl (.inr hfirst) hlast fun hnil => absurd hnil hne
  have hcopied : block.map (copyOf v level) ≠ [] := map_eq_nil_iff.not.mpr hne
  obtain ⟨ts, newline, hbefore, hwritten, hnewline⟩ :=
    Row.tokensBefore_opener hopener hcopied hcopies hrow r.rows
  refine ⟨q, ⟨commentSign documents, number, level, 0, false⟩, opener.marker .indent (level + 1) 1, newline, ts,
    ?_, ?_, ?_, ⟨rfl, rfl, rfl⟩, opener.marker_is _ _ _, hwritten, hnewline⟩
  · rw [← singleton_append, readLines_append, bind_of_ok _ hread]
    exact hlines
  · -- The last row is one of the block, and the line ends the block.
    obtain ⟨last, hmem, hhead⟩ : ∃ last ∈ rows, q.rows.head? = some last := by
      rcases hreverse : rows.reverse with _ | ⟨last, before⟩
      · rw [reverse_eq_nil_iff] at hreverse
        rw [hreverse, forall₂_nil_right_iff] at hcopies
        exact absurd hcopies hcopied
      · refine ⟨last, ?_, by rw [hrows, hreverse]; rfl⟩
        rw [← mem_reverse, hreverse]
        exact mem_cons_self
    have hlevel := Row.level_of_copies hcopies last hmem
    refine h.takes.below (hunit.trans h.unit.symm) hhead (by omega) fun b hb => ?_
    rw [hraw] at hb
    cases hb
    exact hbase.ge
  · rw [hrows, hbefore, hopener, Row.tokens, flatMap_singleton, htokens]
    rfl

end Reading

/-! ## Clauses in the middle of a history -/

/-- A history with clauses in between, if they leave the session as it was. -/
theorem History.run_between (unit : Text) {ds : List Clause} (ht : (ofTokens tokens).Translates cs t)
    (hes : t.Translates es t₁) (hyields : s.YieldsTo t₁) (hends : s.stream.EndsLine)
    (hrest : t₁.stream.rest.map Token.unplaced = s.stream.rest.map Token.unplaced) (hds : s.Translates ds s')
    (hend : s'.stream.rest = []) : (run unit tokens).stop? = none ∧ (run unit tokens).clauses = cs ++ (es ++ ds) ∧
      (run unit tokens).helpers = s'.reader.helpers.used := by
  obtain ⟨t', ht', hfollows⟩ := hds.mirrored_elsewhere (hyields.follows hends hrest)
  obtain ⟨hstop, hfinal, hclauses⟩ :=
    run_of_translates unit (ht.append (hes.append ht')) (hfollows.reader.rest_eq hend)
  refine ⟨hstop, hclauses, ?_⟩
  rw [helpers, hfinal, hfollows.reader.helpers]
  exact filter_true _

/-- Clauses that come in between, and after which nothing can be continued. They are in the way of
the other clauses only if these continue a block. -/
theorem History.run_between_iff (unit : Text) {steps : List Step} (ht : (ofTokens tokens).Translates cs t)
    (hes : t.Translates es t₁) (hforgets : s.forget.YieldsTo t₁)
    (hprevious : ∀ tag ∈ Tag.continued, t₁.scopes.previous ≠ some tag) (hends : s.stream.EndsLine)
    (hrest : t₁.stream.rest.map Token.unplaced = s.stream.rest.map Token.unplaced) (hsteps : s.Runs steps s')
    (hend : s'.stream.rest = []) : ((run unit tokens).stop? = none ↔ Step.continueBlock steps = false) ∧
      ((run unit tokens).stop? = none →
        (run unit tokens).clauses = cs ++ (es ++ steps.filterMap fun step => step.outcome.toOption) ∧
        (run unit tokens).helpers = s'.reader.helpers.used) := by
  have hgoes : Step.continueBlock steps = false → (run unit tokens).stop? = none ∧
      (run unit tokens).clauses = cs ++ (es ++ steps.filterMap fun step => step.outcome.toOption) ∧
      (run unit tokens).helpers = s'.reader.helpers.used := by
    intro hcontinue
    obtain ⟨s'', hds, hs''⟩ := hsteps.forget hcontinue
    have hend' : s''.stream.rest = [] := by
      rw [stream, hs'']
      exact hend
    rw [← hs'']
    exact run_between unit ht hes hforgets hends hrest hds hend'
  have honly : (run unit tokens).stop? = none → Step.continueBlock steps = false := by
    intro hstop
    obtain ⟨hend', htranslates⟩ := translates_of_stop? hstop
    obtain ⟨ds, hds⟩ := (ht.append hes).onward htranslates hend'
    refine Bool.eq_false_iff.mpr fun hcontinue => ?_
    exact hsteps.not_translates hcontinue (hforgets.follows hends hrest) hprevious hds hend'
  exact ⟨⟨honly, fun hcontinue => (hgoes hcontinue).1⟩, fun hstop => (hgoes (honly hstop)).2⟩

theorem Session.Runs.elsewhere_row {steps : List Step} {back : List Token} (h : (ofTokens tokens).Runs steps s)
    (htokens : tokens = row.tokensBefore rows ++ back) (hrest : s.stream.rest = back) (ahead : List Token) :
    ∃ t, (ofTokens (row.tokensBefore rows ++ ahead)).Translates (steps.filterMap fun step => step.outcome.toOption) t ∧
      t.stream.rest = ahead ∧ s.YieldsTo t := by
  obtain ⟨front, hfront⟩ := Row.tokensBefore_start rows row
  obtain ⟨m, hm, hmarker⟩ := Row.getLast?_tokensBefore rows row
  rw [htokens, hfront] at h
  rw [hfront] at hm ⊢
  refine h.elsewhere hrest (fun m' hm' => ?_) ahead
  obtain rfl := Option.mem_unique hm hm'
  exact hmarker

/-- The body has the text of these clauses in between. -/
theorem History.body_between {h' : History} {line : Int} (hclauses : h'.clauses = (h.above line).clauses ++
      (es ++ (h.below line).filterMap fun step => step.outcome.toOption)) (hunit : h'.unit = h.unit) :
    h'.body = (h.above line).body ++ ((es.map (Clause.render h.unit)).flatten ++
      (((h.below line).filterMap fun step => step.outcome.toOption).map (Clause.render h.unit)).flatten) := by
  rw [body, texts, hclauses, hunit, map_append, map_append, flatten_append, flatten_append]
  rfl

theorem SourceHistory.Accepts.depth_eq_zero (haccepts : SourceHistory.Accepts unit source h) : h.depth = 0 := by
  obtain ⟨scanned, hscan, rfl⟩ := history_eq haccepts.1
  rw [History.depth, Scopes.depth, (History.closed_final (laidOut_of_scan hscan) haccepts.2).1]
  rfl

open Reading in
/-- A source with more lines above a line of words. Its history is the same up to them, and behind
them there are the tokens with which the history went on. -/
theorem SourceHistory.Accepts.insert {below : List Text} (haccepts : SourceHistory.Accepts unit source h)
    (hindent : unit.Leading) (hsource : source.pieces lineEnd = above ++ line :: below)
    (hfilled : (content line).isEmpty = false) (hraw : ¬ Layout.IsRaw h.unit (above ++ line :: below) above.length)
    (hlabel : Layout.followsLabel above line = false) : h.unit = learnedUnit unit (above ++ line :: below) ∧
    ∃ (level : Nat) (words : List Word) (r : Reading) (row : Row) (s : Session),
      Meets h.unit above line level words r ∧ (row.isVerbatim = false ∧ row.level = level) ∧
      s.Runs (h.below (above.length + 1)) h.final ∧ h.final.stream.rest = [] ∧ s.stream.EndsLine ∧
      ∀ (extra : List Text) (q : Reading) (added : List Token), readLines (above.length + 1) extra r = .ok () q →
        q.Takes (indentation line) level → row.tokensBefore q.rows = row.tokensBefore r.rows ++ added →
        (∀ l ∈ extra, lineEnd ∉ l) → learnedUnit unit (above ++ (extra ++ line :: below)) = h.unit →
        ∃ (tokens back : List Token) (t : Session),
          (SourceHistory.run unit (join [lineEnd] (above ++ (extra ++ line :: below)))).history =
            .ok (History.run h.unit tokens) ∧
          (ofTokens tokens).Translates (h.above (above.length + 1)).clauses t ∧
          t.stream.rest = added ++ back ∧ back.map Token.unplaced = s.stream.rest.map Token.unplaced ∧
          s.YieldsTo t := by
  obtain ⟨scanned, hscan, rfl⟩ := history_eq haccepts.1
  obtain ⟨hlearned, level, words, r, row, after, hmeets, hrow, htokens, hmore⟩ :=
    scan_above hindent hscan hsource hfilled hraw
  obtain ⟨s, habove, hbelow, hend, hrest⟩ := haccepts.split hscan hmeets hrow htokens hlabel
  obtain ⟨-, ts, hreads⟩ := habove.reads (nested_ofTokens _)
  have hends := (endsLine_ofTokens (scan_ends hscan).2).read hreads
  refine ⟨hlearned, level, words, r, row, s, hmeets, ?_, hbelow, hend, hends, ?_⟩
  · rw [hrow]
    exact ⟨rfl, rfl⟩
  · intro extra q added hread htakes hbefore hwhole hunit
    obtain ⟨back, hscan', hback⟩ := hmore extra q hread htakes hwhole hunit
    obtain ⟨t, ht, htrest, hyields⟩ := habove.elsewhere_row htokens hrest (added ++ back)
    rw [hbefore, append_assoc] at hscan'
    rw [← hrest] at hback
    exact ⟨row.tokensBefore r.rows ++ (added ++ back), back, t, history_of_scan hscan', ht, htrest, hback,
      hyields⟩

/-! ## Comments on a line of their own -/

namespace Layout

theorem commentSign_documents (documents : Bool) : (commentSign documents == ("#." : Text)) = documents := by
  cases documents with
  | true => rfl
  | false => rfl

theorem isCommentSign_of_commentSign {documents : Bool} {sign : Token} (htext : sign.text = commentSign documents)
    (hraw : sign.raw = false) : sign.isCommentSign := by
  rw [Token.isCommentSign, Token.is, Token.is, htext, hraw]
  cases documents with
  | true => rfl
  | false => rfl

end Layout

theorem Clause.render_newline (unit : Text) (level : Nat) :
    (Clause.newline level).render unit = "\n" ++ repeated level unit := by
  change (lineEnd :: repeated level unit) ++ [] = _
  rw [append_nil]
  rfl

theorem Clause.render_lineComment (unit : Text) (documents : Bool) {text : Text} (htext : text ≠ []) :
    (Clause.lineComment ⟨documents, text⟩).render unit = (if documents then "/// " else "// ") ++ text := by
  have hfragment : (Clause.lineComment ⟨documents, text⟩).fragment =
      [.code (LineComment.sign ⟨documents, text⟩ ++ " "), .comment text] := by
    rw [fragment, LineComment.fragment, if_neg]
    exact fun hempty => htext (List.isEmpty_iff.mp hempty)
  rw [render, hfragment]
  cases documents with
  | true | false => exact congrArg _ (append_nil text)

/-- A comment on a line of its own does not matter. Let a source be accepted and let a comment be
put above a line of words, with the same indentation, unless this line is a case label behind
another one. The source is still accepted, with the same helpers and depth. Its text has the
comment, a line break and the indentation of the line in front of what the line is translated to,
and is the same otherwise. -/
theorem accepts_lineComment {unit source line text : Text} {above below : List Text} {h : History} (documents : Bool)
    (hindent : ∀ b ∈ unit, Text.isIndent b = true) (haccepts : SourceHistory.Accepts unit source h)
    (hsource : source.pieces Text.lineEnd = above ++ line :: below) (hfilled : (content line).isEmpty = false)
    (hraw : ¬ Layout.IsRaw h.unit (above ++ line :: below) above.length)
    (hlabel : Layout.followsLabel above line = false) (hwhole : Text.lineEnd ∉ text)
    (hvisible : ∃ c ∈ text.symbols, c.isBlank = false) : ∃ (h' : History) (level : Nat) (behind : Text),
      SourceHistory.Accepts unit (Text.join [Text.lineEnd] (above ++
        (indentation line ++ (Layout.commentSign documents ++ (" " ++ text))) :: line :: below)) h' ∧
      h'.helpers = h.helpers ∧ h'.depth = h.depth ∧ h'.unit = h.unit ∧ IsLevel h.unit (indentation line) level ∧
      h.body = (h.above (above.length + 1)).body ++ behind ∧
      h'.body = (h.above (above.length + 1)).body ++
        (((if documents then "/// " else "// ") ++ Text.trim text ++ ("\n" ++ Text.repeated level h.unit)) ++
          behind) := by
  have htext := Text.trim_ne_nil hvisible
  obtain ⟨hlearned, level, words, r, row, s, hmeets, hrow, hbelow, hend, hends, hmore⟩ :=
    haccepts.insert hindent hsource hfilled hraw hlabel
  -- The scanner reads the comment and has the other tokens as before.
  obtain ⟨q, sign, copied, newline, hread, htakes, hbefore, hsign, hcopied, hnewline, hlevel⟩ :=
    hmeets.comment (above.length + 1) documents htext row hrow
  have hone : ∀ l ∈ [indentation line ++ (Layout.commentSign documents ++ (" " ++ text))], Text.lineEnd ∉ l := by
    refine forall_mem_singleton.mpr (Layout.lineEnd_not_mem_comment line documents ?_)
    exact fun hmem => hwhole ((mem_cons.mp hmem).resolve_left (by decide))
  have hunit := Reading.learnedUnit_insert hfilled (Layout.comment_filled line documents htext)
    (Layout.indentation_comment line documents _) unit above below
  obtain ⟨tokens, back, t, hrun, ht, hrest, hback, hyields⟩ :=
    hmore _ q _ hread htakes hbefore hone (hunit.trans hlearned.symm)
  -- The translator reads it behind the clauses of the lines above and goes on with the line.
  have hrest' : t.stream.rest = sign :: copied :: newline :: back := hrest
  obtain ⟨reader, trace, hes, hreader, hhelpers⟩ := Session.translates_lineComment
    (Layout.isCommentSign_of_commentSign hsign.1 hsign.2) hcopied.2 hnewline hrest'
  have hyields' : s.YieldsTo { t with reader := reader, trace := trace } :=
    { hyields with helpers := by rw [hhelpers]; exact hyields.helpers }
  rw [← hreader] at hback
  obtain ⟨hstop, hclauses, hused⟩ :=
    History.run_between h.unit ht hes hyields' hends hback hbelow.translates hend
  have haccepts' := And.intro hrun hstop
  refine ⟨_, level, _, haccepts', hused, ?_, rfl, ?_, h.body_eq_above _, ?_⟩
  · rw [SourceHistory.Accepts.depth_eq_zero haccepts', haccepts.depth_eq_zero]
  · exact hmeets.unit ▸ hmeets.takes.isLevel
  · rw [History.body_between hclauses rfl, hsign.1, Layout.commentSign_documents, hcopied.1, hlevel, map_cons,
      map_singleton, flatten_cons, flatten_singleton, Clause.render_lineComment _ _ htext,
      Clause.render_newline]

/-- A comment between a block and the `else` that continues it. The unit of the source is not known
before. -/
theorem accepts_lineComment_else :
    ∃ h, SourceHistory.Accepts [] ("if a:\n\tpass\n#.  why not \nelse:\n\tprint a\n" : String) h ∧
      h.helpers = [.print] ∧ h.depth = 0 ∧
      h.body = ("if (a) \x7b\n\t\x7b\x7d\n\x7d\n/// why not\nelse \x7b\n\tprint(a);\n\x7d\n" : String) := by
  have hrun : ((SourceHistory.run [] ("if a:\n\tpass\nelse:\n\tprint a\n" : String)).history.toOption.map
      fun h => (h.stop?, h.helpers, (h.above 3).body, h.body)) =
        some (none, [.print], ("if (a) \x7b\n\t\x7b\x7d\n\x7d\n" : Text),
          ("if (a) \x7b\n\t\x7b\x7d\n\x7d\nelse \x7b\n\tprint(a);\n\x7d\n" : Text)) := by decide +kernel
  obtain ⟨h, haccepts, hparts⟩ := SourceHistory.accepts_of_map hrun
  obtain ⟨hhelpers, hparts⟩ := Prod.mk.inj hparts
  obtain ⟨habove, hbody⟩ := Prod.mk.inj hparts
  have hvisible : ∃ c ∈ Text.symbols (" why not " : String), c.isBlank = false := by decide +kernel
  have hsource : Text.pieces Text.lineEnd ("if a:\n\tpass\nelse:\n\tprint a\n" : String) =
      [("if a:" : Text), ("\tpass" : Text)] ++ ("else:" : Text) :: [("\tprint a" : Text), ("" : Text)] := by
    decide +kernel
  have hplain : ∀ line ∈ [("if a:" : Text), ("\tpass" : Text)] ++
      ("else:" : Text) :: [("\tprint a" : Text), ("" : Text)],
      Reading.opensRaw (Reading.content line) = false := by decide +kernel
  obtain ⟨h', level, behind, haccepts', hhelpers', hdepth, hunit, hlevel, hbehind, hbody'⟩ :=
    accepts_lineComment true (forall_mem_nil _) haccepts hsource (by decide +kernel)
      (Layout.not_isRaw_of_not_opensRaw hplain h.unit 2) (by decide +kernel) (by decide +kernel) hvisible
  have hleading : Text.repeated level h.unit = [] := hlevel.repeated_eq
  have hrest : behind = ("else \x7b\n\tprint(a);\n\x7d\n" : Text) := by
    have hsplit : (h.above 3).body ++ behind = (h.above 3).body ++ ("else \x7b\n\tprint(a);\n\x7d\n" : Text) := by
      refine hbehind.symm.trans (hbody.trans ?_)
      rw [habove]
      rfl
    exact append_cancel_left hsplit
  refine ⟨h', haccepts', hhelpers'.trans hhelpers, ?_, ?_⟩
  · rw [hdepth, haccepts.depth_eq_zero]
  · rw [hleading, hrest] at hbody'
    refine hbody'.trans ?_
    change (h.above 3).body ++ _ = _
    rw [habove]
    decide +kernel

/-! ## Block comments -/

/-- A block comment does no more harm than to forget what was closed last. Let a source be accepted
and let a block comment be put above a line of words, at the same level, unless this line is a case
label behind another one. The source is still accepted if and only if the next clause from the line
on, comments apart, continues no block. If so, the helpers and the depth are the same, and the text
has the comment and a line break in front of what the line is translated to. -/
theorem accepts_blockComment_iff {unit source line : Text} {above below block : List Text} {h : History}
    (documents : Bool) (hunit : unit ≠ []) (hindent : ∀ b ∈ unit, Text.isIndent b = true)
    (haccepts : SourceHistory.Accepts unit source h)
    (hsource : source.pieces Text.lineEnd = above ++ line :: below) (hfilled : (content line).isEmpty = false)
    (hraw : ¬ Layout.IsRaw h.unit (above ++ line :: below) above.length)
    (hlabel : Layout.followsLabel above line = false) (hne : block ≠ []) (hwhole : ∀ l ∈ block, Text.lineEnd ∉ l)
    (hdeeper : ∀ l ∈ block, (content l).isEmpty = false → indentation line ++ unit <+: l)
    (hfirst : ∀ l ∈ block.head?, (content l).isEmpty = false)
    (hlast : ∀ l ∈ block.getLast?, (content l).isEmpty = false) :
    ∃ (level : Nat) (behind : Text), IsLevel unit (indentation line) level ∧
      h.body = (h.above (above.length + 1)).body ++ behind ∧
      ((∃ h', SourceHistory.Accepts unit (Text.join [Text.lineEnd] (above ++
          ((indentation line ++ Layout.commentSign documents) :: block ++ line :: below))) h') ↔
        Step.continueBlock (h.below (above.length + 1)) = false) ∧
      ∀ h', SourceHistory.Accepts unit (Text.join [Text.lineEnd] (above ++
          ((indentation line ++ Layout.commentSign documents) :: block ++ line :: below))) h' →
        h'.helpers = h.helpers ∧ h'.depth = h.depth ∧
        h'.body = (h.above (above.length + 1)).body ++
          (((Clause.blockComment documents level (block.map (Layout.copyOf unit level))).render unit ++
            ("\n" ++ Text.repeated level unit)) ++ behind) := by
  have hknown : unit.isEmpty = false := isEmpty_eq_false_iff.mpr hunit
  obtain ⟨hlearned, level, words, r, row, s, hmeets, hrow, hbelow, hend, hends, hmore⟩ :=
    haccepts.insert hindent hsource hfilled hraw hlabel
  have hsame : h.unit = unit := hlearned.trans (Reading.learnedUnit_of_known hknown _)
  rw [hsame] at hmeets
  have hlevel : IsLevel unit (indentation line) level := hmeets.unit ▸ hmeets.takes.isLevel
  have hmargin : Layout.margin unit level = indentation line ++ unit := by
    rw [Layout.margin, Reading.repeated_add, hlevel.repeated_eq]
    exact congrArg _ (append_nil unit)
  rw [← hmargin] at hdeeper
  -- The scanner reads the comment and has the other tokens as before.
  obtain ⟨q, sign, opener, newline, ts, hread, htakes, hbefore, hsign, hopener, hwritten, hnewline, hnewlevel⟩ :=
    hmeets.block (above.length + 1) documents hne hdeeper hfirst hlast hrow
  have hlines : ∀ l ∈ (indentation line ++ Layout.commentSign documents) :: block, Text.lineEnd ∉ l := by
    refine forall_mem_cons.mpr ⟨?_, hwhole⟩
    have hopens := Layout.lineEnd_not_mem_comment line documents (not_mem_nil (a := Text.lineEnd))
    rwa [append_nil] at hopens
  obtain ⟨tokens, back, t, hrun, ht, hrest, hback, hyields⟩ :=
    hmore _ q _ hread htakes hbefore hlines (by rw [hsame, Reading.learnedUnit_of_known hknown])
  -- The translator reads it and has forgotten what was closed last.
  have hrest' : t.stream.rest = sign :: opener :: (ts ++ newline :: back) := by
    rw [hrest]
    simp
  obtain ⟨reader, trace, hes, hreader, hhelpers⟩ := Session.translates_blockComment
    (Layout.isCommentSign_of_commentSign hsign.1 hsign.2.1) hopener hwritten hnewline hrest'
  have hforgets : s.forget.YieldsTo
      { t with reader := reader, scopes := ⟨t.scopes.tags, some .comment⟩, trace := trace } :=
    { hyields with
      helpers := by rw [hhelpers]; exact hyields.helpers
      previous := .inl rfl }
  have hcomment : ∀ tag ∈ Tag.continued, some Tag.comment ≠ some tag := by decide
  rw [← hreader] at hback
  obtain ⟨hstop, hmatches⟩ :=
    History.run_between_iff h.unit ht hes hforgets hcomment hends hback hbelow hend
  refine ⟨level, _, hlevel, h.body_eq_above _, ⟨?_, ?_⟩, ?_⟩
  · rintro ⟨h', haccepts'⟩
    obtain rfl := Except.ok.inj (hrun.symm.trans haccepts'.1)
    exact hstop.mp haccepts'.2
  · exact fun hsteps => ⟨_, hrun, hstop.mpr hsteps⟩
  · intro h' haccepts'
    obtain rfl := Except.ok.inj (hrun.symm.trans haccepts'.1)
    obtain ⟨hclauses, hused⟩ := hmatches haccepts'.2
    refine ⟨hused, ?_, ?_⟩
    · rw [haccepts'.depth_eq_zero, haccepts.depth_eq_zero]
    · rw [History.body_between hclauses rfl, hsign.1, Layout.commentSign_documents, hsign.2.2, hnewlevel, map_cons,
        map_singleton, flatten_cons, flatten_singleton, Clause.render_newline, hsame]

/-- A block comment between a block and the `else` that continues it is an error, and one within the
`else` is none. -/
theorem accepts_blockComment_iff_else :
    (¬ ∃ h, SourceHistory.Accepts ("  " : String) ("if a:\n  pass\n#\n  why\nelse:\n  print a\n" : String) h) ∧
    ∃ h, SourceHistory.Accepts ("  " : String) ("if a:\n  pass\nelse:\n  #\n    why\n  print a\n" : String) h ∧
      h.helpers = [.print] ∧ h.depth = 0 ∧
      h.body = ("if (a) \x7b\n  \x7b\x7d\n\x7d\nelse \x7b\n  /*\n    why\n  */\n  print(a);\n\x7d\n" : String) := by
  have hrun : ((SourceHistory.run ("  " : String)
      ("if a:\n  pass\nelse:\n  print a\n" : String)).history.toOption.map fun h =>
        (h.stop?, h.helpers, (h.above 4).body, h.body,
          Step.continueBlock (h.below 3) && !Step.continueBlock (h.below 4))) =
        some (none, [.print], ("if (a) \x7b\n  \x7b\x7d\n\x7d\nelse \x7b\n  " : Text),
          ("if (a) \x7b\n  \x7b\x7d\n\x7d\nelse \x7b\n  print(a);\n\x7d\n" : Text), true) := by
    decide +kernel
  obtain ⟨h, haccepts, hparts⟩ := SourceHistory.accepts_of_map hrun
  obtain ⟨hhelpers, hparts⟩ := Prod.mk.inj hparts
  obtain ⟨habove, hparts⟩ := Prod.mk.inj hparts
  obtain ⟨hbody, hcontinue⟩ := Prod.mk.inj hparts
  obtain ⟨hcontinues, hcontinues'⟩ := Bool.and_eq_true_iff.mp hcontinue
  rw [Bool.not_eq_true'] at hcontinues'
  have hunit : (("  " : String) : Text) ≠ [] := cons_ne_nil _ _
  have hsource : Text.pieces Text.lineEnd ("if a:\n  pass\nelse:\n  print a\n" : String) =
      [("if a:" : Text), ("  pass" : Text)] ++ ("else:" : Text) :: [("  print a" : Text), ("" : Text)] := by
    decide +kernel
  have hplain : ∀ line ∈ [("if a:" : Text), ("  pass" : Text)] ++
      ("else:" : Text) :: [("  print a" : Text), ("" : Text)],
      Reading.opensRaw (Reading.content line) = false := by decide +kernel
  constructor
  · have hdeeper : ∀ l ∈ [("  why" : Text)], (Reading.content l).isEmpty = false →
        Reading.indentation ("else:" : Text) ++ (("  " : String) : Text) <+: l := by decide +kernel
    obtain ⟨-, -, -, -, hiff, -⟩ := accepts_blockComment_iff false hunit (all_eq_true.mp rfl) haccepts hsource
      (by decide +kernel) (Layout.not_isRaw_of_not_opensRaw hplain h.unit 2) (by decide +kernel)
      (cons_ne_nil _ _) (by decide) hdeeper (by decide +kernel) (by decide +kernel)
    intro haccepted
    have hnot : Step.continueBlock (h.below 3) = false := hiff.mp haccepted
    rw [hcontinues] at hnot
    cases hnot
  · have hsource' : Text.pieces Text.lineEnd ("if a:\n  pass\nelse:\n  print a\n" : String) =
        [("if a:" : Text), ("  pass" : Text), ("else:" : Text)] ++ ("  print a" : Text) :: [("" : Text)] := hsource
    have hdeeper : ∀ l ∈ [("    why" : Text)], (Reading.content l).isEmpty = false →
        Reading.indentation ("  print a" : Text) ++ (("  " : String) : Text) <+: l := by decide +kernel
    obtain ⟨level, behind, hlevel, hbehind, hiff, hmatches⟩ := accepts_blockComment_iff false hunit
      (all_eq_true.mp rfl) haccepts hsource' (by decide +kernel)
      (Layout.not_isRaw_of_not_opensRaw hplain h.unit 3) (by decide +kernel) (cons_ne_nil _ _) (by decide)
      hdeeper (by decide +kernel) (by decide +kernel)
    obtain ⟨h', haccepts'⟩ := hiff.mpr hcontinues'
    obtain ⟨hhelpers', hdepth, hbody'⟩ := hmatches h' haccepts'
    have hone : level = 1 := by
      refine Reading.repeated_inj (isEmpty_eq_false_iff.mpr hunit) (hlevel.repeated_eq.trans ?_)
      decide +kernel
    have hrest : behind = ("print(a);\n\x7d\n" : Text) := by
      have hsplit : (h.above 4).body ++ behind = (h.above 4).body ++ ("print(a);\n\x7d\n" : Text) := by
        refine hbehind.symm.trans (hbody.trans ?_)
        rw [habove]
        rfl
      exact append_cancel_left hsplit
    refine ⟨h', haccepts', hhelpers'.trans hhelpers, ?_, ?_⟩
    · rw [hdepth, haccepts.depth_eq_zero]
    · rw [hone, hrest] at hbody'
      refine hbody'.trans ?_
      change (h.above 4).body ++ _ = _
      rw [habove]
      decide +kernel

end Offside
