/-
Clauses in between.

When other clauses come between two parts of a run, the second part goes through if they leave as
much of the session as it looks at (`Session.YieldsTo`).
-/
import Offside.Proofs.CommentEnd
import Offside.Proofs.PartialResult
import Offside.Proofs.Translate.Jump

set_option autoImplicit false

namespace Offside

open List Token Translate

namespace Session

variable {s s' t : Session} {cs : List Clause} {steps : List Step}

/-! ## Going on elsewhere -/

/-- `t` can go on in the place of `s`. -/
structure YieldsTo (s t : Session) : Prop where
  helpers : t.reader.helpers.used = s.reader.helpers.used
  tags : t.scopes.tags = s.scopes.tags
  previous : s.scopes.previous = none ∨ t.scopes.previous = s.scopes.previous
  generics : t.generics = s.generics
  terminated : .caseBody ∈ s.scopes.tags → t.terminated = s.terminated
  trace : s.trace.isEmpty = false

/-- What yields to a session is followed by it. -/
theorem YieldsTo.follows (h : s.YieldsTo t) (hends : s.stream.EndsLine)
    (hrest : t.stream.rest.map unplaced = s.stream.rest.map unplaced) :
    s.Follows (.elsewhere [] [] true) t where
  reader := by
    refine ⟨⟨t.stream.rest, ?_, (append_nil _).symm⟩, ?_⟩
    · refine (forall₂_of_unplaced hrest).imp fun v v' hline => ?_
      obtain ⟨line, rfl⟩ := hline
      exact Placement.same_elsewhere line
    · exact h.helpers.trans (filter_true _).symm
  ends := hends
  last := .inl fun _ => rfl
  tags := by rw [h.tags]; exact (append_nil _).symm
  previous := h.previous
  generics := h.generics
  terminated := h.terminated
  trace := by
    rw [h.trace]
    exact fun hempty => absurd hempty (by decide)
  begun := fun _ => h.trace

theorem Translates.trace (h : s.Translates cs s') (hs : s.trace.isEmpty = false) (hends : s.stream.EndsLine) :
    s'.trace.isEmpty = false := by
  have hself : s.YieldsTo s := ⟨rfl, rfl, .inr rfl, rfl, fun _ => rfl, hs⟩
  obtain ⟨t, -, hfollows⟩ := h.mirrored_elsewhere (hself.follows hends rfl)
  exact hfollows.begun rfl

/-- The first part of a run goes through with other tokens ahead. -/
theorem Runs.elsewhere {front back : List Token} (h : (ofTokens (Row.start :: front ++ back)).Runs steps s)
    (hrest : s.stream.rest = back) (hends : ∀ m ∈ (Row.start :: front).getLast?, m.isMarker)
    (after : List Token) :
    ∃ t, (ofTokens (Row.start :: front ++ after)).Translates (steps.filterMap fun step => step.outcome.toOption) t ∧
      t.stream.rest = after ∧ s.YieldsTo t := by
  have hback : s.stream.rest = [] ++ back := hrest
  have hfront : (ofTokens (Row.start :: front ++ back)).stream.rest = (Row.start :: front) ++ back := rfl
  obtain ⟨steps', hsteps, hpast⟩ := h.cut (nested_ofTokens _) hfront hback
  have hstart : Offside.cut (ofTokens (Row.start :: front ++ back)) (Row.start :: front) =
      ofTokens (Row.start :: front) := rfl
  have hclauses : (⟨[], s, steps'⟩ : History).clauses = (⟨[], s, steps⟩ : History).clauses :=
    History.clauses_eq_of_past hpast
  rw [History.clauses, History.clauses] at hclauses
  have htranslates := hsteps.translates
  rw [hclauses, hstart] at htranslates
  obtain ⟨t, ht, hfollows⟩ := htranslates.mirrored_elsewhere (follows_ofTokens after hends)
  refine ⟨t, ht, hfollows.reader.rest_eq rfl, ?_, ?_, hfollows.previous, hfollows.generics, hfollows.terminated, ?_⟩
  · rw [hfollows.reader.helpers]
    exact filter_true _
  · rw [hfollows.tags]
    exact append_nil _
  · -- The marker of the start is the first clause.
    obtain ⟨cs, d, -, hcs⟩ := htranslates.of_begin rfl
    have hread : (ofTokens (Row.start :: front)).stream.Reads [Row.start]
        ((ofTokens (Row.start :: front)).start Row.start front).stream := ⟨rfl, rfl⟩
    exact hcs.trace rfl ((endsLine_ofTokens hends).read hread)

end Session

/-! ## Comments -/

variable {sign copied : Token} {rest : List Token}

theorem Parse.lineComment_of_text {r : Reader} (sign : Token) (hcopied : copied.raw)
    (hrest : r.stream.rest = copied :: rest) :
    lineComment sign r = .ok ⟨sign.text == "#.", copied.text⟩ (r.advance copied rest) := by
  have htext : commentText r = .ok copied.text (r.advance copied rest) := by
    rw [commentText, bind_of_ok _ (peek?_eq r), hrest]
    dsimp only [head?_cons]
    rw [if_pos hcopied, bind_of_ok _ (pop_eq hrest)]
    rfl
  rw [lineComment, bind_of_ok _ htext]
  rfl

theorem Translate.comment_of_text {s : Session} (sign : Token) (hcopied : copied.raw)
    (hrest : s.stream.rest = copied :: rest) : comment sign s = .ok (.lineComment ⟨sign.text == "#.", copied.text⟩)
      { s with reader := s.reader.advance copied rest } := by
  have hplain : copied.is Marker.indent.text = false :=
    is_eq_false_of_isMarker (isMarker_of_raw hcopied) _
  rw [comment, lift_atText_cons hrest, hplain, if_neg Bool.false_ne_true,
    bind_of_ok _ (lift_of_ok (Parse.lineComment_of_text sign hcopied hrest))]
  rfl

variable {step : Step} {newline : Token} {lines : List Text}

namespace Session

variable {s s' t : Session} {cs : List Clause} {steps : List Step}

theorem clause_comment (hsign : sign.isCommentSign) (s : Session) : clause sign s =
      Translate.comment sign { s with trace := ⟨sign, s.scopes.describe⟩ :: s.trace } := by
  have hrecord : recordDispatch sign s
      = .ok s.trace.isEmpty { s with trace := ⟨sign, s.scopes.describe⟩ :: s.trace } := rfl
  change clauseIn (s.remaining + 1) sign s = _
  rw [clauseIn, lexeme_of_isCommentSign hsign, bind_of_ok _ hrecord,
    raw_of_isCommentSign hsign, if_pos hsign]
  rfl

/-- A comment on its own line is two clauses and leaves all else alone. -/
theorem translates_lineComment (hsign : sign.isCommentSign) (hcopied : copied.raw)
    (hnewline : newline.is Marker.newline.text) (hrest : s.stream.rest = sign :: copied :: newline :: rest) :
    ∃ reader trace, s.Translates [.lineComment ⟨sign.text == "#.", copied.text⟩, .newline newline.level]
        { s with reader := reader, trace := trace } ∧
      reader.stream.rest = rest ∧ reader.helpers = s.reader.helpers := by
  have hnext : ({ s.start sign (copied :: newline :: rest) with trace := ⟨sign, s.scopes.describe⟩ :: s.trace } :
      Session).stream.rest = copied :: newline :: rest := rfl
  have hcomment := comment_of_text sign hcopied hnext
  exact ⟨_, _, .step hrest ((clause_comment hsign _).trans hcomment)
    (.step rfl (clause_newline hnewline) (.refl _)), rfl, rfl⟩

/-- A block comment leaves itself as what was closed last. -/
theorem translates_blockComment {opener : Token} {ts : List Token} (hsign : sign.isCommentSign)
    (hopener : opener.is Marker.indent.text) (hlines : RawWritten lines ts)
    (hnewline : newline.is Marker.newline.text)
    (hrest : s.stream.rest = sign :: opener :: (ts ++ newline :: rest)) :
    ∃ reader trace, s.Translates [.blockComment (sign.text == "#.") sign.level lines, .newline newline.level]
        { s with reader := reader, scopes := ⟨s.scopes.tags, some .comment⟩, trace := trace } ∧
      reader.stream.rest = rest ∧ reader.helpers = s.reader.helpers := by
  have hnext : ({ s.start sign (opener :: (ts ++ newline :: rest)) with
      trace := ⟨sign, s.scopes.describe⟩ :: s.trace } : Session).stream.rest = opener :: (ts ++ newline :: rest) := rfl
  obtain ⟨r, hcomment, hr, hhelpers⟩ := comment_of_written sign hopener hlines hnext
  refine ⟨r.advance newline rest, _, .step hrest ((clause_comment hsign _).trans hcomment)
    (.step hr (clause_newline hnewline) (.refl _)), rfl, hhelpers⟩

def forget (s : Session) : Session := { s with scopes := s.scopes.forget }

end Session

/-! ## What was closed last -/

namespace Token

def continuesBlock (t : Token) : Bool := t.is "else" || t.is "except" || t.is "finally"

/-- Does the token start a comment, or a clause that is no more than the start or the end of a line? -/
def isQuiet (t : Token) : Bool := t.is Marker.begin.text || t.is Marker.newline.text || t.isCommentSign

theorem continuesBlock_of_isQuiet {t : Token} (h : t.isQuiet) : t.continuesBlock = false := by
  have hother : ∀ {v w : Text}, t.is v → v ≠ w → t.is w = false := by
    intro v w hv hne
    rw [is, (is_iff.mp hv).2, beq_eq_false_iff_ne.mpr hne, Bool.and_false]
  rw [isQuiet, isCommentSign, Bool.or_eq_true, Bool.or_eq_true, Bool.or_eq_true] at h
  rw [continuesBlock]
  rcases h with (h | h) | h | h
  all_goals rw [hother h (by decide), hother h (by decide), hother h (by decide)]; rfl

end Token

namespace Translate

variable {s s' : Session} {t : Token} {c : Clause}

/-- The clause does not depend on what was closed last. This is not known any more behind the
clause, unless it is a quiet one. -/
def Forgets (quiet : Bool) (p : Translate Clause) : Prop :=
  ∀ s c s', p s = .ok c s' → p s.forget = .ok c s' ∨ quiet ∧ p s.forget = .ok c s'.forget

variable {quiet : Bool}

theorem Forgets.reject (e : ParseError) : Forgets quiet (Translate.reject e) := by
  intro s c s' h
  cases h

theorem Forgets.guard {b : Prop} [Decidable b] {e : ParseError} {f : Unit → Translate Clause}
    (h : Forgets quiet (f ())) : Forgets quiet (if b then Translate.reject e >>= f else f ()) := by
  split
  · intro s c s' h
    cases h
  · exact h

theorem Forgets.record {f : Bool → Translate Clause} (h : ∀ first, Forgets quiet (f first)) (t : Token) :
    Forgets quiet (recordDispatch t >>= f) :=
  fun s c s' hok => h s.trace.isEmpty { s with trace := ⟨t, s.scopes.describe⟩ :: s.trace } c s' hok

theorem Forgets.setTerminated {p : Translate Clause} (h : Forgets quiet p) (b : Bool) :
    Forgets quiet (Translate.setTerminated b >>= fun _ => p) :=
  fun s c s' hok => h { s with terminated := b } c s' hok

theorem Forgets.forgetPrevious (f : Unit → Translate Clause) : Forgets quiet (Translate.forgetPrevious >>= f) :=
  fun _ _ _ hok => .inl hok

theorem closeBlock_forget {closing : Closing} (h : closeBlock t s = .ok closing s') :
    closeBlock t s.forget = .ok closing s' := by
  rcases s with ⟨reader, ⟨tags, previous⟩, generics, terminated, trace⟩
  cases tags with
  | nil => cases h
  | cons tag tags => exact h

theorem marker_forgets (m : Marker) (first : Bool) (t : Token) (hbegin : m = .begin → quiet)
    (hnewline : m = .newline → quiet) : Forgets quiet (marker m first t) := by
  intro s c s' h
  cases m with
  | begin =>
    cases first with
    | true =>
      cases h
      exact .inr ⟨hbegin rfl, rfl⟩
    | false => cases h
  | newline =>
    cases h
    exact .inr ⟨hnewline rfl, rfl⟩
  | dedent =>
    rw [marker] at h ⊢
    obtain ⟨closing, s₁, hclose, h⟩ := bind_ok h
    exact .inl ((bind_of_ok _ (closeBlock_forget hclose)).trans h)
  | indent => cases h

theorem rawBlock_forget (h : rawBlock .comment s = .ok lines s') :
    rawBlock .comment s.forget = .ok lines s' ∧ s'.scopes.previous = some .comment := by
  obtain ⟨opener, r, r', hnext, hlines, hname, rfl⟩ := rawBlock_ok h
  exact ⟨rawBlock_of_ok (s := s.forget) hname hnext hlines, rfl⟩

theorem comment_forgets (t : Token) : Forgets true (comment t) := by
  intro s c s' h
  rw [comment] at h ⊢
  obtain ⟨atIndent, s₁, htest, h⟩ := bind_ok h
  obtain ⟨r, hr, rfl⟩ := lift_ok htest
  have htest' : (liftM (Parse.atText Marker.indent.text) : Translate Bool) s.forget =
      .ok atIndent { s.forget with reader := r } := lift_of_ok hr
  rw [bind_of_ok _ htest']
  cases atIndent with
  | true =>
    obtain ⟨lines, s₂, hlines, h⟩ := bind_ok h
    rw [if_pos rfl]
    exact .inl ((bind_of_ok _ (rawBlock_forget hlines).1).trans h)
  | false =>
    obtain ⟨line, s₂, hline, h⟩ := bind_ok h
    obtain ⟨r', hr', rfl⟩ := lift_ok hline
    cases h
    rw [if_neg Bool.false_ne_true]
    exact .inr ⟨rfl, bind_of_ok _ (lift_of_ok (s := { s.forget with reader := r }) hr')⟩

/-- A clause that continues no block does not ask what was closed last. -/
theorem clauseIn_forgets (n : Nat) (ht : t.continuesBlock = false) : Forgets t.isQuiet (clauseIn n t) := by
  have hother : ∀ {k : Keyword} {w : Text}, k.text? = some w → t.is w = false → t.lexeme ≠ .keyword k := by
    intro k w hk hw hlexeme
    rw [(is_text_iff hk).mpr hlexeme] at hw
    cases hw
  rw [continuesBlock, Bool.or_eq_false_iff, Bool.or_eq_false_iff] at ht
  obtain ⟨⟨helse, hexcept⟩, hfinally⟩ := ht
  cases n with
  | zero =>
    intro s c s' h
    cases h
  | succ n =>
    rw [clauseIn]
    refine .record (fun first => .guard ?_) t
    -- Markers and comments can keep what was closed last, and other clauses forget it first.
    split
    · next m hlexeme =>
      have hm : t.is m.text := (is_text_iff (by cases m <;> rfl)).mpr hlexeme
      refine marker_forgets m first t ?_ ?_
      · rintro rfl
        rw [isQuiet, hm]
        rfl
      · rintro rfl
        rw [isQuiet, hm, Bool.or_true]
        rfl
    · split
      · next hsign =>
        have hquiet : t.isQuiet := by rw [isQuiet, hsign, Bool.or_true]
        rw [hquiet]
        exact comment_forgets t
      · exact .reject _
    · next w hlexeme =>
      refine .setTerminated ?_ false
      cases w with
      | elseWord => exact absurd hlexeme (hother rfl helse)
      | _ => exact .forgetPrevious _
    · next w hlexeme =>
      refine .setTerminated ?_ false
      cases w with
      | exceptWord => exact absurd hlexeme (hother rfl hexcept)
      | finallyWord => exact absurd hlexeme (hother rfl hfinally)
      | _ => exact .forgetPrevious _
    · exact .forgetPrevious _
    · exact .forgetPrevious _

/-- Behind a quiet token the same can be continued as before, or else nothing can. -/
theorem clause_quiet (ht : t.isQuiet) (h : clause t s = .ok c s') :
    s'.scopes = s.scopes ∨ s'.scopes.previous = some .comment := by
  rw [isQuiet, Bool.or_eq_true, Bool.or_eq_true] at ht
  rcases ht with (ht | ht) | hsign
  · have hrecord : recordDispatch t s =
        .ok s.trace.isEmpty { s with trace := ⟨t, s.scopes.describe⟩ :: s.trace } := rfl
    have hmarker : marker .begin s.trace.isEmpty t { s with trace := ⟨t, s.scopes.describe⟩ :: s.trace } =
        .ok c s' := by
      change clauseIn (s.remaining + 1) t s = _ at h
      rw [clauseIn, lexeme_of_is_marker ht, bind_of_ok _ hrecord, (Token.is_iff.mp ht).1] at h
      exact h
    cases hfirst : s.trace.isEmpty with
    | true =>
      rw [hfirst] at hmarker
      cases hmarker
      exact .inl rfl
    | false =>
      rw [hfirst] at hmarker
      cases hmarker
  · rw [Session.clause_newline ht] at h
    cases h
    exact .inl rfl
  · rw [Session.clause_comment hsign, comment] at h
    obtain ⟨atIndent, s₁, htest, h⟩ := bind_ok h
    obtain ⟨r, hr, rfl⟩ := lift_ok htest
    cases atIndent with
    | false =>
      obtain ⟨line, s₂, hline, h⟩ := bind_ok h
      obtain ⟨r', hr', rfl⟩ := lift_ok hline
      cases h
      exact .inl rfl
    | true =>
      obtain ⟨lines, s₂, hlines, h⟩ := bind_ok h
      cases h
      exact .inr (rawBlock_forget hlines).2

end Translate

namespace Step

def continueBlock (steps : List Step) : Bool :=
  (steps.find? fun step => !step.token.isQuiet).any fun step => step.token.continuesBlock

theorem continueBlock_quiet (h : step.token.isQuiet) (steps : List Step) :
    continueBlock (step :: steps) = continueBlock steps := by
  rw [continueBlock, find?_cons_of_neg (by rw [h]; exact Bool.false_ne_true)]
  rfl

theorem continueBlock_cons (h : step.token.isQuiet = false) (steps : List Step) :
    continueBlock (step :: steps) = step.token.continuesBlock := by
  rw [continueBlock, find?_cons_of_pos (by rw [h]; rfl)]
  rfl

end Step

namespace Session

variable {s s₁ s' t t' : Session} {cs ds : List Clause} {steps : List Step} {u : Token} {rest : List Token}
  {c : Clause}

/-- It does the same after that was forgotten. -/
theorem clause_forget (hu : u.continuesBlock = false) (hclause : clause u (s.start u rest) = .ok c s₁) :
    clause u (s.forget.start u rest) = .ok c s₁ ∨
      u.isQuiet ∧ clause u (s.forget.start u rest) = .ok c s₁.forget :=
  clauseIn_forgets _ hu (s.start u rest) c s₁ hclause

/-- So does a run that starts with such a clause. -/
theorem Runs.forget (h : s.Runs steps s') (hsteps : Step.continueBlock steps = false) :
    ∃ s'', s.forget.Translates (steps.filterMap fun step => step.outcome.toOption) s'' ∧ s''.reader = s'.reader := by
  induction h with
  | nil s => exact ⟨s.forget, .refl _, rfl⟩
  | @cons s s₁ s' u rest c steps hrest hclause h ih =>
    have hu : u.continuesBlock = false := by
      cases hquiet : u.isQuiet with
      | true => exact continuesBlock_of_isQuiet hquiet
      | false => rw [← hsteps, Step.continueBlock_cons hquiet]
    rcases clause_forget hu hclause with hclause' | ⟨hquiet, hclause'⟩
    · exact ⟨s', .step hrest hclause' h.translates, rfl⟩
    · rw [Step.continueBlock_quiet hquiet] at hsteps
      obtain ⟨s'', hs'', hreader⟩ := ih hsteps
      exact ⟨s'', .step hrest hclause' hs'', hreader⟩

theorem Translates.onward (h : s.Translates cs s₁) (h' : s.Translates ds s') (hend : s'.stream.rest = []) :
    ∃ es, s₁.Translates es s' := by
  induction h generalizing ds with
  | refl s => exact ⟨ds, h'⟩
  | step hrest hclause _ ih =>
    cases h' with
    | refl =>
      rw [hend] at hrest
      cases hrest
    | step hrest' hclause' h' =>
      obtain ⟨rfl, rfl⟩ := cons.inj (hrest.symm.trans hrest')
      rw [hclause] at hclause'
      cases hclause'
      exact ih h'

/-- A clause that continues a block cannot follow anything else. -/
theorem not_clause (hu : u.continuesBlock) (hprevious : ∀ tag ∈ Tag.continued, s.scopes.previous ≠ some tag) :
    clause u (s.start u rest) ≠ .ok c s' := by
  intro hclause
  have hleads : s.scopes.Leads (u :: rest) := clauseIn_leads _ u _ _ _ hclause
  have hadmits : ∀ {k : Keyword} {w : Text}, k.text? = some w → u.is w → s.scopes.Admits (.keyword k) := by
    intro k w hk hw
    have hlexeme := (is_text_iff hk).mp hw
    rw [← hlexeme]
    refine (Scopes.leads_of_admits rest fun hattribute => ?_).mp hleads
    rw [Token.category, hlexeme, Lexeme.category_eq_attributeWord_iff] at hattribute
    cases hattribute
    cases hk
  rw [continuesBlock, Bool.or_eq_true, Bool.or_eq_true] at hu
  rcases hu with (hu | hu) | hu
  · exact hprevious .ifBlock (by decide) (hadmits (k := .conditional .elseWord) rfl hu)
  · rcases hadmits (k := .exceptionWord .exceptWord) rfl hu with h | h
    · exact hprevious .tryBlock (by decide) h
    · exact hprevious .exceptBlock (by decide) h
  · rcases hadmits (k := .exceptionWord .finallyWord) rfl hu with h | h
    · exact hprevious .tryBlock (by decide) h
    · exact hprevious .exceptBlock (by decide) h

/-- So neither can a run that starts with one. -/
theorem Runs.not_translates (h : s.Runs steps s') (hsteps : Step.continueBlock steps)
    (hfollows : s.forget.Follows (.elsewhere [] [] true) t)
    (hprevious : ∀ tag ∈ Tag.continued, t.scopes.previous ≠ some tag) (ht : t.Translates ds t')
    (hend : t'.stream.rest = []) : False := by
  induction h generalizing t ds with
  | nil s => cases hsteps
  | @cons s s₁ s' u rest c steps hrest hclause h ih =>
    obtain ⟨v, rest', hrest', hsame, -⟩ := hfollows.reader.advance hrest
    obtain ⟨line, rfl⟩ : ∃ line, v = { u with line := line } := by
      cases hsame with
      | moved line _ => exact ⟨line, by rw [Placement.moved, Placement.elsewhere, Int.add_zero]⟩
      | closer line hcloses => cases hcloses
    cases hquiet : u.isQuiet with
    | true =>
      -- A quiet step leaves nothing to continue, so the steps behind it decide.
      have hone : ∃ s₂, s.forget.Translates [c] s₂ ∧ (s₂ = s₁ ∨ s₂ = s₁.forget) := by
        rcases clause_forget (continuesBlock_of_isQuiet hquiet) hclause with hclause' | ⟨-, hclause'⟩
        · exact ⟨s₁, .step hrest hclause' (.refl _), .inl rfl⟩
        · exact ⟨s₁.forget, .step hrest hclause' (.refl _), .inr rfl⟩
      obtain ⟨s₂, htranslates, hs₂⟩ := hone
      obtain ⟨t₁, ht₁, hfollows₁⟩ := htranslates.mirrored_elsewhere hfollows
      obtain ⟨es, hes⟩ := ht₁.onward ht hend
      have hfollows₂ : s₁.forget.Follows (.elsewhere [] [] true) t₁ := by
        rcases hs₂ with rfl | rfl
        · exact { hfollows₁ with previous := .inl rfl }
        · exact hfollows₁
      rw [Step.continueBlock_quiet hquiet] at hsteps
      refine ih hsteps hfollows₂ ?_ hes
      cases ht₁ with
      | step hrest'' hclause' hrefl =>
        cases hrefl
        obtain ⟨rfl, rfl⟩ := cons.inj (hrest'.symm.trans hrest'')
        rcases clause_quiet (t := { u with line := line }) hquiet hclause' with hscopes | hcomment
        · rw [hscopes]
          exact hprevious
        · rw [hcomment]
          decide
    | false =>
      -- The first step that is not quiet would have to continue a block.
      rw [Step.continueBlock_cons hquiet] at hsteps
      cases ht with
      | refl =>
        have hnil : t'.reader.stream.rest = [] := hend
        rw [hnil] at hrest'
        cases hrest'
      | step hrest'' hclause' _ =>
        obtain ⟨rfl, rfl⟩ := cons.inj (hrest'.symm.trans hrest'')
        exact not_clause (u := { u with line := line }) hsteps hprevious hclause'

end Session

end Offside
