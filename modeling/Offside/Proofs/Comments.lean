/-
Comments are copied, and that is all they do.

Give the comments of a source other texts, none of them empty (`Token.Recommented`). The translator
then takes the same steps, and its clauses are those from before but for these texts.
-/
import Offside.Proofs.Failure

set_option autoImplicit false

namespace Offside

open List Text Session Fragment

/-! ## Other comments -/

namespace Token

/-- The second tokens are the first ones with other texts in comments. Is a raw token that comes
first the text of a comment? That is what `before` says. -/
inductive Recommented : Bool → List Token → List Token → Prop
  | nil (before : Bool) : Recommented before [] []
  | keep {before : Bool} {t : Token} {ts ts' : List Token}
      (h : Recommented (t.commentBehind before) ts ts') : Recommented before (t :: ts) (t :: ts')
  | change {before : Bool} {t : Token} {ts ts' : List Token} (text : Text) (hbefore : before)
      (hraw : t.raw) (hold : t.text ≠ []) (hnew : text ≠ [])
      (h : Recommented (t.commentBehind before) ts ts') :
      Recommented before (t :: ts) ({ t with text := text } :: ts')

theorem Recommented.refl (before : Bool) (ts : List Token) : Recommented before ts ts := by
  induction ts generalizing before with
  | nil => exact .nil before
  | cons t ts ih => exact .keep (ih _)

def commentTexts : Bool → List Token → List Text
  | _, [] => []
  | before, t :: ts =>
    (if t.raw && before && !t.text.isEmpty then [t.text] else []) ++
      commentTexts (t.commentBehind before) ts

end Token

variable {t : Token} {tags tags' : List Tag} {ts : List Token}
variable {before : Bool} {c : Clause} {ts' rest tokens : List Token} {cs : List Clause}
  {comment : Option LineComment}

namespace Rewording

def toward (tokens : List Token) : Rewording where
  text k old :=
    let new := (tokens[k]?.map Token.text).getD old
    if old.isEmpty || new.isEmpty then old else new
  isEmpty_text := by
    intro k old
    dsimp only
    split
    · rfl
    · next h =>
      rw [Bool.or_eq_true, not_or, Bool.not_eq_true, Bool.not_eq_true] at h
      rw [h.1, h.2]

theorem toward_rest {k : Nat} (h : Token.Recommented before ts ts') (htokens : tokens.drop k = ts') :
    (toward tokens).rest k ts = ts' ∧ (toward tokens).Spares before k ts := by
  have hcons : ∀ {k t us}, tokens.drop k = t :: us → tokens[k]? = some t ∧ tokens.drop (k + 1) = us := by
    intro k t us h
    rw [← head?_drop, ← tail_drop, h]
    exact ⟨rfl, rfl⟩
  induction h generalizing k with
  | nil => exact ⟨rfl, trivial⟩
  | @keep before t ts ts' _ ih =>
    obtain ⟨hhead, htail⟩ := hcons htokens
    have htoken : (toward tokens).token k t = t := by
      cases hraw : t.raw with
      | false => exact token_plain _ k hraw
      | true =>
        -- The other tokens have it too, so whichever text is taken is this one.
        rw [token_raw _ k hraw]
        simp [toward, hhead]
    obtain ⟨hrest, hspares⟩ := ih htail
    exact ⟨by rw [rest, htoken, hrest], fun _ _ => htoken, hspares⟩
  | @change before t ts ts' text hbefore hraw hold hnew _ ih =>
    obtain ⟨hhead, htail⟩ := hcons htokens
    have htoken : (toward tokens).token k t = { t with text := text } := by
      rw [token_raw _ k hraw]
      simp [toward, hhead, hold, hnew]
    obtain ⟨hrest, hspares⟩ := ih htail
    refine ⟨by rw [rest, htoken, hrest], fun _ hno => ?_, hspares⟩
    rw [hbefore] at hno
    cases hno

theorem chain_rest (g : Rewording) (k : Nat) (h : ts.IsChain Token.MayPrecede) :
    (g.rest k ts).IsChain Token.MayPrecede := by
  induction ts generalizing k with
  | nil => exact h
  | cons t ts ih =>
    cases ts with
    | nil => exact isChain_singleton _
    | cons u ts =>
      rw [isChain_cons_cons] at h
      rw [rest, rest, isChain_cons_cons]
      refine ⟨?_, ih (k + 1) h.2⟩
      simpa [Token.MayPrecede] using h.1

end Rewording

/-! ## Runs -/

section

variable {P : Token → Prop} {g : Rewording} {s : Session}

theorem Lines.head_raw {level : Nat} (h : Lines P level (t :: rest)) : t.raw = false := by
  cases hmarker : t.isMarker with
  | true => exact Token.raw_of_isMarker hmarker
  | false =>
    obtain ⟨-, -, -, -, hraw, -⟩ := h.of_plain hmarker
    exact hraw

/-- The second history takes the steps of the first one, after a rewording. -/
structure History.Reworded (g : Rewording) (h h' : History) : Prop where
  stop : h'.stop? = h.stop?
  final : h'.final = g.session h.final
  clauses : Forall₂ Clause.Alike h.clauses h'.clauses

theorem History.Reworded.cons {unit : Text} {n : Nat} {s₁ s' s₁' : Session} {t' : Token} {c' : Clause}
    (h : History.Reworded g (s₁.history unit n) (s₁'.history unit n))
    (hnext : Step.next? .forward s = some ⟨t, .ok c, s₁⟩)
    (hnext' : Step.next? .forward s' = some ⟨t', .ok c', s₁'⟩) (halike : c.Alike c') :
    History.Reworded g (s.history unit (n + 1)) (s'.history unit (n + 1)) := by
  obtain ⟨hstop, hfinal, hclauses⟩ := history_ok unit n hnext
  obtain ⟨hstop', hfinal', hclauses'⟩ := history_ok unit n hnext'
  constructor
  · rw [hstop, hstop', h.stop]
  · rw [hfinal, hfinal', h.final]
  · rw [hclauses, hclauses']
    exact .cons halike h.clauses

theorem Rewording.rest_session (g : Rewording) (s : Session) :
    (g.session s).stream.rest = g.rest s.stream.seen.length s.stream.rest := rfl

theorem Rewording.start_session (g : Rewording) (s : Session) (ht : t.raw = false) (rest : List Token) :
    (g.session s).start t (g.rest (s.stream.seen.length + 1) rest) = g.session (s.start t rest) := by
  have hreader := g.reader_advance s.reader t rest
  rw [g.token_plain _ ht] at hreader
  unfold Session.start Rewording.session
  rw [hreader]
  rfl

/-- Other texts of comments leave the steps of a run as they are, by induction on their number. -/
theorem Session.Resumes.reworded (unit : Text) (n : Nat) (hnested : s.Nested 0) (hnested' : (g.session s).Nested 0)
    (h : s.Resumes P) (hspares : g.SparesAhead before s) :
    History.Reworded g (s.history unit n) ((g.session s).history unit n) := by
  induction n generalizing s before with
  | zero => exact ⟨rfl, rfl, .nil⟩
  | succ n ih =>
    rcases hrest : s.stream.rest with _ | ⟨t, rest⟩
    · -- At the end of the tokens there is no step in either history.
      have hrest' : (g.session s).stream.rest = [] := by
        rw [g.rest_session, hrest]
        rfl
      unfold Session.history
      rw [sequence_none (Session.next?_nil hrest), sequence_none (Session.next?_nil hrest')]
      exact ⟨rfl, rfl, .nil⟩
    have hraw : t.raw = false := by
      rw [Session.Resumes, hrest] at h
      exact h.head_raw
    have hrest' : (g.session s).stream.rest = t :: g.rest (s.stream.seen.length + 1) rest := by
      rw [g.rest_session, hrest, Rewording.rest, g.token_plain _ hraw]
    have hreturns := Translate.clause_returns hrest h hspares
    have hstart := g.start_session s hraw rest
    rcases hclause : Translate.clause t (s.start t rest) with ⟨c, s₁⟩ | ⟨stop, s₁⟩
    · -- The clauses are alike, and the lines behind them are where both go on.
      obtain ⟨c', hclause', halike, hresumes⟩ := hreturns.result c s₁ hclause
      rw [← hstart] at hclause'
      obtain ⟨hnested₁, ts, hreads⟩ := hnested.clause hrest hclause
      obtain ⟨before₁, hspares₁⟩ := hspares.of_reads hreads
      exact (ih hnested₁ (hnested'.clause hrest' hclause').1 hresumes hspares₁).cons
        (next?_ok hnested hrest hclause) (next?_ok hnested' hrest' hclause') halike
    · -- Both stop here, and for the same reason.
      obtain ⟨hclause', -⟩ := hreturns.stop stop s₁ hclause
      rw [← hstart] at hclause'
      have hnext : Step.next? .forward s = some ⟨t, .error stop, s₁⟩ := by
        rw [Session.next?_cons hrest, hclause]
      have hnext' : Step.next? .forward (g.session s) = some ⟨t, .error stop, g.session s₁⟩ := by
        rw [Session.next?_cons hrest', hclause']
      unfold Session.history
      rw [sequence_error hnext, sequence_error hnext']
      exact ⟨rfl, rfl, .nil⟩

/-- So it is for the run over all tokens. -/
theorem History.reworded_run (unit : Text) (h : Lines P 0 rest) (hspares : g.Spares false 0 (Row.start :: rest)) :
    History.Reworded g (run unit (Row.start :: rest)) (run unit (g.rest 0 (Row.start :: rest))) := by
  have hfirst : (ofTokens (Row.start :: rest)).stream.rest = Row.start :: rest := rfl
  have hnested := nested_ofTokens (Row.start :: rest)
  have hnested' := nested_ofTokens (g.rest 0 (Row.start :: rest))
  have hfirst' : (ofTokens (g.rest 0 (Row.start :: rest))).stream.rest = Row.start :: g.rest 1 rest := rfl
  -- The marker of the start is a clause of its own, and the lines come behind it.
  have hclause := clause_begin (s := (ofTokens (Row.start :: rest)).start Row.start rest)
    Row.start_is rfl
  have hclause' := clause_begin
    (s := (ofTokens (g.rest 0 (Row.start :: rest))).start Row.start (g.rest 1 rest)) Row.start_is rfl
  rw [history_ofTokens, history_ofTokens, g.length_rest]
  exact (Session.Resumes.reworded unit _ (hnested.clause hfirst hclause).1
    (hnested'.clause hfirst' hclause').1 h hspares.2).cons
    (next?_ok hnested hfirst hclause) (next?_ok hnested' hfirst' hclause') rfl

end

/-! ## Texts of comments, in order -/

namespace Token

variable {t : Token} {ts : List Token}

def commentAfter (before : Bool) (ts : List Token) : Bool :=
  ts.foldl (fun before t => t.commentBehind before) before

theorem commentTexts_append (before : Bool) (ts us : List Token) : commentTexts before (ts ++ us) =
    commentTexts before ts ++ commentTexts (commentAfter before ts) us := by
  induction ts generalizing before with
  | nil => rfl
  | cons t ts ih =>
    rw [cons_append, commentTexts, commentTexts, ih, append_assoc]
    rfl

theorem commentTexts_cons (ht : t.raw = false) (before : Bool) (ts : List Token) :
    commentTexts before (t :: ts) = commentTexts (t.commentBehind before) ts := by
  rw [commentTexts, ht]
  rfl

theorem commentTexts_marker {m : Marker} (ht : t.is m.text) (before : Bool) (ts : List Token) :
    commentTexts before (t :: ts) = commentTexts before ts := by
  rw [commentTexts_cons (is_iff.mp ht).1, commentBehind_of_isMarker (isMarker_of_mark ht)]

theorem commentTexts_sign (ht : t.isCommentSign) (before : Bool) (ts : List Token) :
    commentTexts before (t :: ts) = commentTexts true ts := by
  have hraw := raw_of_isCommentSign ht
  rw [commentTexts_cons hraw, commentBehind_of_word hraw (isMarker_of_isCommentSign ht), ht]

theorem commentTexts_code (ht : t.IsCode) (before : Bool) (ts : List Token) :
    commentTexts before (t :: ts) = commentTexts false ts := by
  rw [commentTexts_cons ht.raw, commentBehind_of_word ht.raw ht.marker, ht.sign]

theorem commentTexts_codes (h : ∀ t ∈ ts, t.IsCode) (before : Bool) : commentTexts before ts = [] := by
  induction ts generalizing before with
  | nil => rfl
  | cons t ts ih =>
    rw [commentTexts_code (h t mem_cons_self)]
    exact ih (fun u hu => h u (mem_cons_of_mem _ hu)) false

end Token

def Fragment.comments : Fragment → List Text
  | [] => []
  | .comment text :: f => text :: comments f
  | .code _ :: f | .verbatim _ :: f | .lineBreak _ :: f => comments f

namespace Fragment

theorem comments_append (f f' : Fragment) : comments (f ++ f') = comments f ++ comments f' := by
  induction f with
  | nil => rfl
  | cons p f ih => cases p <;> simp [comments, ih]

end Fragment

open Token (commentTexts commentTexts_append commentTexts_marker commentTexts_sign commentTexts_code
  commentTexts_codes)

theorem LineComment.Written.comments {c : LineComment} (h : c.Written ts) (before : Bool) :
    commentTexts before ts = c.fragment.comments := by
  cases h with
  | bare hsign =>
    rw [commentTexts_sign hsign]
    rfl
  | @text sign t hsign ht =>
    rw [commentTexts_sign hsign, commentTexts, ht]
    cases hempty : t.text.isEmpty <;> simp [LineComment.fragment, Fragment.comments, hempty, commentTexts]

theorem LineComment.WrittenAfter.comments (h : LineComment.WrittenAfter comment ts) (before : Bool) :
    commentTexts before ts = (LineComment.trailing comment).comments := by
  cases comment with
  | none =>
    rw [LineComment.WrittenAfter] at h
    rw [h]
    rfl
  | some c => exact LineComment.Written.comments h before

theorem comments_line {cs : List Token} (hts : ∀ t ∈ ts, t.IsCode) (hcomment : LineComment.WrittenAfter comment cs)
    (before : Bool) (us : List Token) : ∃ before', commentTexts before (ts ++ (cs ++ us)) =
      (LineComment.trailing comment).comments ++ commentTexts before' us := by
  rw [commentTexts_append, commentTexts_codes hts, commentTexts_append, hcomment.comments]
  exact ⟨_, rfl⟩

theorem RawWritten.comments {lines : List Text} (h : RawWritten lines ts) (before : Bool) :
    commentTexts before ts = if before then lines.filter (!·.isEmpty) else [] := by
  induction h with
  | close ht =>
    rw [commentTexts_marker ht]
    cases before <;> rfl
  | line ht _ ih =>
    rw [commentTexts, Token.commentBehind_of_raw ht, ih, ht, filter_cons]
    cases before with
    | false => rfl
    | true => split <;> simp_all
  | newline ht _ ih => rw [commentTexts_marker ht, ih]

theorem Clause.comments_copiedLines (level : Int) (lines : List Text) :
    Fragment.comments (lines.flatMap fun line => copiedLine level line .comment) = lines.filter (!·.isEmpty) := by
  induction lines with
  | nil => rfl
  | cons line lines ih =>
    rw [flatMap_cons, comments_append, ih]
    cases hempty : line.isEmpty <;> simp [copiedLine, hempty, Fragment.comments]

theorem Clause.comments_passthrough (level : Int) (lines : List Text) :
    (passthrough level lines).fragment.comments = [] := by
  cases lines with
  | nil => rfl
  | cons line lines =>
    rw [fragment, Fragment.comments]
    induction lines with
    | nil => rfl
    | cons line lines ih =>
      rw [flatMap_cons, comments_append, ih]
      cases hempty : line.isEmpty <;> simp [copiedLine, hempty, Fragment.comments]

theorem Closing.comments_fragment (c : Closing) : c.fragment.comments = [] := by
  cases c with
  | block => rfl
  | caseBody needsBreak => cases needsBreak <;> rfl

theorem Ending.Written.comments {e : Ending} (h : e.Written tags ts tags') (before : Bool) :
    commentTexts before ts = e.fragment.comments := by
  cases h with
  | input => rfl
  | line _ ht => exact commentTexts_marker ht _ _
  | @closing _ _ _ c ht =>
    rw [commentTexts_marker ht, Ending.fragment, c.comments_fragment]
    rfl

theorem LabelLine.comments_fragment (l : LabelLine) :
    l.fragment.comments = (LineComment.trailing l.comment).comments := by
  rw [fragment, cons_append, Fragment.comments, comments_append]
  exact append_nil _

theorem LabelLine.AllWritten.comments {ls : List LabelLine} (h : AllWritten ls ts) (before : Bool) :
    commentTexts before ts = Fragment.comments (ls.flatMap fragment) := by
  induction h generalizing before with
  | @last l _ _ m hline hm =>
    obtain ⟨before', hcomments⟩ := comments_line hline.codes.2 hline.comment before [m]
    rw [hcomments, commentTexts_marker hm, flatMap_singleton, l.comments_fragment]
    exact append_nil _
  | @more l ls _ _ us m hline hm _ ih =>
    obtain ⟨before', hcomments⟩ := comments_line hline.codes.2 hline.comment before (m :: us)
    rw [hcomments, commentTexts_marker hm, ih, flatMap_cons, comments_append, l.comments_fragment]

/-- A clause has the comments of its tokens. -/
theorem Clause.Written.comments (h : c.Written tags ts tags') (before : Bool) :
    commentTexts before ts = c.fragment.comments := by
  induction h generalizing before with
  | start tags ht => exact commentTexts_marker ht _ _
  | newline tags ht => exact commentTexts_marker ht _ _
  | @dedent _ _ _ c ht _ =>
    rw [commentTexts_marker ht, fragment, c.comments_fragment]
    rfl
  | lineComment tags h => exact h.comments before
  | blockComment tags hsign ht h =>
    rw [commentTexts_sign hsign, commentTexts_marker ht, h.comments, if_pos rfl, fragment, cons_append,
      Fragment.comments, comments_append, comments_copiedLines]
    exact (append_nil _).symm
  | passthrough tags hopener hopeners ht h =>
    -- The last word before the block is no sign of a comment.
    rw [commentTexts_append, commentTexts_codes hopeners, commentTexts_code hopener, commentTexts_marker ht,
      h.comments, comments_passthrough]
    rfl
  | @simple _ _ _ _ _ _ _ es hcodes _ hcomment he =>
    obtain ⟨before', hcomments⟩ := comments_line hcodes.2 hcomment before es
    rw [hcomments, he.comments, fragment, cons_append, Fragment.comments, comments_append]
  | @block _ _ _ _ _ _ t hcodes _ hcomment ht =>
    obtain ⟨before', hcomments⟩ := comments_line hcodes.2 hcomment before [t]
    rw [hcomments, commentTexts_marker ht, fragment, cons_append, Fragment.comments, comments_append]
    rfl
  | labels tags h => exact h.comments before
  | attributed ht _ _ _ ih =>
    rw [commentTexts_code ht, ih]
    rfl

/-- So have the clauses together, in order. -/
theorem Clause.AllWritten.comments (h : AllWritten tags cs ts tags') (before : Bool) :
    commentTexts before ts = Fragment.comments (cs.flatMap fragment) := by
  induction h generalizing before with
  | nil => rfl
  | cons hc _ _ ih => rw [commentTexts_append, hc.comments, ih, flatMap_cons, comments_append]

/-! ## Around the comments -/

namespace Fragment

variable (unit : Text)

def opening : Fragment → Text
  | [] | .comment _ :: _ => []
  | p :: f => p.render unit ++ opening f

def gaps : Fragment → List Text
  | [] => []
  | .comment _ :: f => opening unit f :: gaps f
  | .code _ :: f | .verbatim _ :: f | .lineBreak _ :: f => gaps f

theorem length_gaps (f : Fragment) : (gaps unit f).length = f.comments.length := by
  induction f with
  | nil => rfl
  | cons p f ih => cases p <;> simp [gaps, comments, ih]

theorem opening_silent (f : Fragment) : opening unit f.silent = opening unit f := by
  induction f with
  | nil => rfl
  | cons p f ih => cases p <;> simp [Piece.silent, opening, ih]

theorem gaps_silent (f : Fragment) : gaps unit f.silent = gaps unit f := by
  induction f with
  | nil => rfl
  | cons p f ih => cases p <;> simp [Piece.silent, gaps, ih, opening_silent]

end Fragment

/-- The texts one after the other, each with a gap behind it, and with one more gap before the
first. -/
def Text.spaced (first : Text) (gaps texts : List Text) : Text :=
  first ++ (List.zipWith (fun text gap => text ++ gap) texts gaps).flatten

/-- A fragment is its comments with text around them that does not depend on them. -/
theorem Fragment.render_eq (unit : Text) (f : Fragment) :
    f.render unit = spaced (f.opening unit) (f.gaps unit) f.comments := by
  induction f with
  | nil => rfl
  | cons p f ih =>
    rw [render_cons, ih]
    cases p <;> simp [spaced, opening, gaps, comments, Piece.render]

theorem Clause.silent_flatMap {cs' : List Clause} (h : Forall₂ Alike cs cs') :
    Fragment.silent (cs'.flatMap fragment) = Fragment.silent (cs.flatMap fragment) := by
  induction h with
  | nil => rfl
  | cons halike _ ih =>
    rw [flatMap_cons, flatMap_cons, silent_append, silent_append, halike, ih]

namespace History

def fragment (h : History) : Fragment := h.clauses.flatMap Clause.fragment

theorem body_eq (h : History) : h.body = h.fragment.render h.unit := by
  rw [fragment, Fragment.render, flatMap_assoc, flatMap_def]
  rfl

theorem Reworded.silent {g : Rewording} {h h' : History} (halike : Reworded g h h') :
    h'.fragment.silent = h.fragment.silent := by
  rw [fragment, fragment]
  exact Clause.silent_flatMap halike.clauses

theorem comments_of_stop? {unit : Text} (hchain : tokens.IsChain Token.MayPrecede)
    (hstop : (run unit tokens).stop? = none) : commentTexts false tokens = (run unit tokens).fragment.comments := by
  obtain ⟨hrest, htranslates⟩ := translates_of_stop? hstop
  obtain ⟨⟨ts, hreads, hwritten⟩, -⟩ := htranslates.written hchain
  have htokens : tokens = ts ++ _ := hreads.1
  rw [hrest, append_nil] at htokens
  rw [← htokens] at hwritten
  exact hwritten.comments false

end History

/-! ## Sources -/

/-- Other comments keep the tokens of a source well-formed and their runs alike. -/
theorem exists_reworded_of_scan {unit source : Text} {scanned : Scanned}
    (hscan : (scan unit source).outcome = .ok scanned) (h : Token.Recommented false scanned.tokens ts') (u : Text) :
    ts'.IsChain Token.MayPrecede ∧ ∃ g, History.Reworded g (History.run u scanned.tokens) (History.run u ts') := by
  obtain ⟨rest, htokens, hlines⟩ := lines_of_scan hscan
  have htoward : (Rewording.toward ts').rest 0 scanned.tokens = ts' ∧
      (Rewording.toward ts').Spares false 0 scanned.tokens :=
    Rewording.toward_rest h rfl
  obtain ⟨hrest, hspares⟩ := htoward
  have hchain : scanned.tokens.IsChain Token.MayPrecede :=
    (chain_of_scan hscan).imp fun t u hadjacent => hadjacent.raw
  refine ⟨?_, Rewording.toward ts', ?_⟩
  · rw [← hrest]
    exact Rewording.chain_rest _ 0 hchain
  · rw [htokens] at hrest hspares ⊢
    have hreworded := History.reworded_run u hlines hspares
    rw [hrest] at hreworded
    exact hreworded

/-- Comments are copied, and that is all they do. Either the translator stops at the same token and
for the same reason whatever the comments of the source say. Or it always ends with the same helpers
and the same number of open scopes, and there are texts to be written before, between and behind the
comments that do not depend on them. -/
theorem comments_only_copied {unit source : Text} {scanned : Scanned}
    (hscan : (scan unit source).outcome = .ok scanned) (u : Text) :
    (∃ e, ∀ ts', Token.Recommented false scanned.tokens ts' → (History.run u ts').stop? = some (.rejected e)) ∨
    ∃ (helpers : List Helper) (depth : Nat) (first : Text) (gaps : List Text),
      ∀ ts', Token.Recommented false scanned.tokens ts' →
        (History.run u ts').stop? = none ∧ (History.run u ts').helpers = helpers ∧
        (History.run u ts').depth = depth ∧ gaps.length = (Token.commentTexts false ts').length ∧
        (History.run u ts').body = Text.spaced first gaps (Token.commentTexts false ts') := by
  rcases History.ends_run u scanned.tokens with ⟨e, hstop⟩ | ⟨hstop, -⟩
  · left
    refine ⟨e, fun ts' h => ?_⟩
    obtain ⟨-, g, hreworded⟩ := exists_reworded_of_scan hscan h u
    rw [hreworded.stop, hstop]
  · right
    refine ⟨(History.run u scanned.tokens).helpers, (History.run u scanned.tokens).depth,
      Fragment.opening u (History.run u scanned.tokens).fragment,
      Fragment.gaps u (History.run u scanned.tokens).fragment, fun ts' h => ?_⟩
    obtain ⟨hchain, g, hreworded⟩ := exists_reworded_of_scan hscan h u
    have hstop' : (History.run u ts').stop? = none := by rw [hreworded.stop, hstop]
    have hunit : (History.run u ts').unit = u := rfl
    -- The gaps were chosen for the tokens of the source, and those for the other tokens are the same.
    rw [History.comments_of_stop? hchain hstop', ← Fragment.opening_silent, ← Fragment.gaps_silent,
      ← hreworded.silent, Fragment.opening_silent, Fragment.gaps_silent]
    refine ⟨hstop', ?_, ?_, Fragment.length_gaps u _, ?_⟩
    · rw [History.helpers, hreworded.final]
      rfl
    · rw [History.depth, hreworded.final]
      rfl
    · rw [History.body_eq, Fragment.render_eq, hunit]

def switchTokens (comment : Text) : List Token :=
  [Row.start, ⟨"switch", 1, 0, 0, false⟩, ⟨"x", 1, 0, 0, false⟩, ⟨":", 1, 0, 0, false⟩,
    ⟨Marker.indent.text, 1, 1, 0, false⟩, ⟨"case", 2, 1, 0, false⟩, ⟨"1", 2, 1, 0, false⟩, ⟨":", 2, 1, 0, false⟩,
    ⟨Marker.indent.text, 2, 2, 0, false⟩, ⟨"pass", 3, 2, 0, false⟩, ⟨"#", 3, 2, 0, false⟩,
    ⟨comment, 3, 2, 0, true⟩, ⟨Marker.dedent.text, 3, 1, 0, false⟩, ⟨Marker.dedent.text, 3, 0, 0, false⟩,
    ⟨Marker.newline.text, 3, 0, 0, false⟩]

theorem recommented_switchTokens {comment comment' : Text} (h : comment ≠ []) (h' : comment' ≠ []) :
    Token.Recommented false (switchTokens comment) (switchTokens comment') := by
  -- Ten words and markers, the sign, the text of the comment, and three markers.
  refine .keep (.keep (.keep (.keep (.keep (.keep (.keep (.keep (.keep (.keep (.keep
    (.change comment' ?_ rfl h h' (Token.Recommented.refl _ _))))))))))))
  decide +kernel

/-- A comment that says `break` is no jump: the case body still needs one. -/
theorem comments_only_copied_break : ∃ (scanned : Scanned) (first : Text) (gaps : List Text),
    (scan [] ("switch x:\n  case 1:\n    pass # one\n" : String)).outcome = .ok scanned ∧
    scanned.tokens = switchTokens "one" ∧ Token.Recommented false scanned.tokens (switchTokens "break") ∧
    gaps.length = 1 ∧ (History.run [] (switchTokens "one")).body = Text.spaced first gaps ["one"] ∧
    (History.run [] (switchTokens "break")).body = Text.spaced first gaps ["break"] := by
  have htokens : ((scan [] ("switch x:\n  case 1:\n    pass # one\n" : String)).outcome.toOption.map
      Scanned.tokens) = some (switchTokens "one") := by
    decide +kernel
  rcases hscan : (scan [] ("switch x:\n  case 1:\n    pass # one\n" : String)).outcome with e | scanned
  · rw [hscan] at htokens
    cases htokens
  rw [hscan] at htokens
  have htokens : scanned.tokens = switchTokens "one" := Option.some.inj htokens
  have hsame := Token.Recommented.refl false scanned.tokens
  have hbreak : Token.Recommented false scanned.tokens (switchTokens "break") := by
    rw [htokens]
    exact recommented_switchTokens (by decide) (by decide)
  rcases comments_only_copied hscan [] with ⟨e, hstop⟩ | ⟨helpers, depth, first, gaps, hcopied⟩
  · have hnone : (History.run [] (switchTokens "one")).stop?.isNone = true := by decide +kernel
    rw [← htokens, hstop _ hsame] at hnone
    cases hnone
  · obtain ⟨-, -, -, hlength, hone⟩ := hcopied _ hsame
    obtain ⟨-, -, -, -, hother⟩ := hcopied _ hbreak
    have hcomments : commentTexts false (switchTokens "one") = ["one"] := by decide +kernel
    have hcomments' : commentTexts false (switchTokens "break") = ["break"] := by decide +kernel
    rw [htokens, hcomments] at hlength hone
    rw [hcomments'] at hother
    exact ⟨scanned, first, gaps, rfl, htokens, hbreak, hlength, hone, hother⟩

end Offside
