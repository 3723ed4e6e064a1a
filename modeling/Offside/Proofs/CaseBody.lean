/-
Where a case body ends with a `break`.

What the last statement of a body is can be told from the tokens: `Step.bodies` follows a history
and keeps, for each open block, the statements directly in it. A block in the body is one of them,
so what stands in it does not count.
-/
import Offside.Proofs.PartialResult
import Offside.Proofs.Translate.Jump

set_option autoImplicit false

namespace Offside

open List Text Token Session

/-! ## The bodies of open blocks -/

/-- The statements that lie directly in a block, the last one first, each with its tokens. -/
abbrev Body := List (List Token)

namespace Body

def leaves (body : Body) : Bool := (body.head?.map Token.leaves).getD false

def add (body : Body) (ts : List Token) : Body :=
  if (ts.head?.map startsStatement).getD false then ts :: body else body

/-- The bodies of the open blocks, the innermost first, after a clause with these tokens. -/
def read (ts : List Token) : List Body → List Body
  | [] => []
  | body :: outer =>
    if balance ts = 1 then [] :: body.add ts :: outer
    else if balance ts = -1 then outer
    else body.add ts :: outer

theorem leaves_add (body : Body) (t : Token) (ts : List Token) :
    (body.add (t :: ts)).leaves = markAfter body.leaves t ts := by
  rw [add, markAfter]
  exact apply_ite leaves _ _ _

end Body

variable {t : Token} {s : Session} {after before : List Step} {rest : List Token}

namespace Step

def reached (s : Session) (steps : List Step) : Session := (steps.getLast?.map Step.after).getD s

def tokens (s : Session) (step : Step) : List Token :=
  s.stream.rest.take (s.remaining - step.after.remaining)

/-- The bodies of the blocks that are open after these steps, when `bodies` are open in `s`. -/
def bodies : Session → List Step → List Body → List Body
  | _, [], bodies => bodies
  | s, step :: steps, bodies => Step.bodies step.after steps (Body.read (step.tokens s) bodies)

theorem tokens_eq {step : Step} {ts : List Token} (h : s.stream.Reads ts step.after.stream) : step.tokens s = ts := by
  have hlen := h.remaining
  have htake : s.remaining - step.after.remaining = ts.length := by
    rw [remaining, remaining]
    omega
  rw [tokens, htake, h.1, take_left]

end Step

/-! ## The mark and the bodies -/

variable {c : Clause}

namespace Session

variable {s s' : Session} {bodies : List Body} {steps : List Step}

/-- The session has as many scopes open as bodies, and its mark is right for the innermost one. -/
structure Marks (bodies : List Body) (s : Session) : Prop where
  nested : s.Nested 0
  length : bodies.length = s.scopes.tags.length + 1
  inner : ∀ body ∈ bodies.head?, s.terminated = body.leaves
  outer : ∀ body ∈ bodies.tail, Body.leaves body = false

theorem marks_ofTokens (tokens : List Token) : (ofTokens tokens).Marks [[]] where
  nested := nested_ofTokens tokens
  length := rfl
  inner := by
    rintro body ⟨⟩
    rfl
  outer := forall_mem_nil _

/-- One clause, with the tokens that it reads and what it does to the scopes and the mark. -/
theorem Nested.tracks (h : s.Nested 0) (hrest : s.stream.rest = t :: rest)
    (hclause : Translate.clause t (s.start t rest) = .ok c s') :
    ∃ ts, s.stream.Reads (t :: ts) s'.stream ∧ s'.Nested 0 ∧
      (s'.scopes.tags.length : Int) = s.scopes.tags.length + balance (t :: ts) ∧
      Tracks s.scopes.tags (markAfter s.terminated t ts) c s' := by
  have hread : s.stream.Reads [t] (s.start t rest).stream := ⟨hrest, rfl⟩
  have hsettled := (Translate.clause_spec h.start).of_ok hclause
  obtain ⟨ts, hts⟩ := hsettled.reads
  have hall : s.stream.Reads (t :: ts) s'.stream := hread.trans hts
  have hdepth : (s.scopes.tags.length : Int) = balance s.stream.seen + 0 := h.depth
  have hdepth' : (s'.scopes.tags.length : Int) = balance s'.stream.seen + 0 := hsettled.depth
  have hbalance := hall.balance
  refine ⟨ts, hall, hsettled.toNested, by omega, ?_⟩
  exact Translate.clauseIn_marks hread.current h.start (Nat.lt_succ_self _) c s' hclause ts hts

/-- A clause keeps the mark and the bodies in step. -/
theorem Marks.step (h : s.Marks bodies) (hrest : s.stream.rest = t :: rest)
    (hclause : Translate.clause t (s.start t rest) = .ok c s') :
    s'.Marks (Body.read (Step.tokens s ⟨t, .ok c, s'⟩) bodies) := by
  obtain ⟨ts, hreads, hnested, hlength, htracks⟩ := h.nested.tracks hrest hclause
  have htokens : Step.tokens s ⟨t, .ok c, s'⟩ = t :: ts := Step.tokens_eq hreads
  rw [htokens]
  obtain ⟨body, outer, rfl⟩ := exists_cons_of_length_eq_add_one h.length
  have hbodies : outer.length = s.scopes.tags.length := Nat.succ.inj h.length
  have hmark : markAfter s.terminated t ts = (body.add (t :: ts)).leaves := by
    rw [Body.leaves_add, h.inner body rfl]
  rw [Body.read]
  cases htracks with
  | stays htags hterminated =>
    rw [htags] at hlength
    rw [if_neg (by omega), if_neg (by omega)]
    refine ⟨hnested, by rw [htags]; exact h.length, ?_, h.outer⟩
    rintro _ ⟨⟩
    exact hterminated.trans hmark
  | opens tag htags hjumped hterminated =>
    rw [htags, length_cons] at hlength
    rw [if_pos (by omega)]
    refine ⟨hnested, by rw [htags]; exact congrArg (· + 1) h.length, ?_, ?_⟩
    · rintro _ ⟨⟩
      exact hterminated
    · exact forall_mem_cons.mpr ⟨hmark.symm.trans hjumped, h.outer⟩
  | closes tag htags hterminated hdedent hclosing =>
    rw [htags, length_cons] at hlength
    rw [if_neg (by omega), if_pos (by omega)]
    refine ⟨hnested, by rw [hbodies, htags]; rfl, ?_, fun body hbody => h.outer body (mem_of_mem_tail hbody)⟩
    -- The body that goes on ends with the header of the block that was closed.
    intro body hbody
    exact hterminated.trans (h.outer body (mem_of_mem_head? hbody)).symm

/-- So does a run, by induction on its steps. -/
theorem Marks.run (h : s.Marks bodies) (hruns : s.Runs steps s') : s'.Marks (Step.bodies s steps bodies) := by
  induction hruns generalizing bodies with
  | nil s => exact h
  | cons hrest hclause _ ih => exact ih (h.step hrest hclause)

end Session

/-! ## What is written -/

def Text.breakLine (unit : Text) (level : Int) : Text := "\n" ++ repeated level.toNat unit ++ "break;"

theorem Closing.render_caseBody (unit : Text) (jumped : Bool) (level : Int) :
    Fragment.render unit (Tag.caseBody.closing jumped level).fragment =
      if jumped then [] else breakLine unit (level + 1) := by
  cases jumped with
  | true => rfl
  | false =>
    change (Piece.lineBreak (level + 1)).render unit ++ ((("break;" : String) : Text) ++ []) = _
    rw [append_nil]
    rfl

def Clause.front : Clause → Fragment
  | .dedent _ => []
  | .simple statement comment _ => .code statement.code :: LineComment.trailing comment
  | .attributed word c => .code (word ++ " ") :: c.front
  | c => c.fragment

theorem Clause.fragment_of_closing? {closing : Closing} (h : c.closing? = some closing) :
    c.fragment = c.front ++ closing.fragment := by
  induction c with
  | dedent _ =>
    obtain rfl := Option.some.inj h
    rfl
  | simple statement comment ending =>
    cases ending with
    | closing _ =>
      obtain rfl := Option.some.inj h
      rfl
    | _ => cases h
  | attributed word c ih =>
    rw [fragment, front, ih h]
    rfl
  | _ => cases h

theorem History.runs_upTo {unit : Text} {tokens : List Token} {step : Step}
    (hsteps : (History.run unit tokens).steps = before ++ step :: after) (hok : step.outcome = .ok c) :
    ∃ s', (ofTokens tokens).Runs (before ++ [step]) s' := by
  refine runs_of_prefix (n := tokens.length + 1) (nested_ofTokens tokens) ⟨after, ?_⟩ ?_
  · rw [append_assoc]
    exact hsteps.symm
  · rw [getLast?_concat]
    rintro _ ⟨⟩
    exact ⟨c, hok⟩

/-- A case body gets its `break` just if its last statement does not leave it. Let a step of a
history close a case body, with a dedent that is a clause of its own or ends the line of a
statement. Behind what else the step writes there is a `break` on a line of its own, one level
deeper than the dedent, unless the last statement that lies directly in the body returns, breaks,
continues, raises, or is a raw block whose last line is a jump. -/
theorem case_body_breaks (unit : Text) (tokens : List Token) {before after : List Step} {step : Step} {c : Clause}
    (hsteps : (History.run unit tokens).steps = before ++ step :: after) (hok : step.outcome = .ok c)
    (hcase : (Step.reached (.ofTokens tokens) before).scopes.tags = .caseBody :: step.after.scopes.tags) :
    ∃ body outer, Step.bodies (.ofTokens tokens) before [[]] = body :: outer ∧
      step.after.stream.current.is Marker.dedent.text = true ∧
      c.render unit = Fragment.render unit c.front ++
        if (Body.add body (step.tokens (Step.reached (.ofTokens tokens) before))).leaves then []
        else Text.breakLine unit (step.after.stream.level + 1) := by
  obtain ⟨s', hruns⟩ := History.runs_upTo hsteps hok
  obtain ⟨s, hbefore, hstep⟩ := hruns.split
  have hreached : Step.reached (.ofTokens tokens) before = s := hbefore.final
  rw [hreached] at hcase ⊢
  have hmarks := (Session.marks_ofTokens tokens).run hbefore
  obtain ⟨body, outer, hbodies⟩ := exists_cons_of_length_eq_add_one hmarks.length
  cases hstep with
  | @cons _ s₁ _ t rest _ _ hrest hclause h =>
    cases hok
    obtain ⟨ts, hreads, -, -, htracks⟩ := hmarks.nested.tracks hrest hclause
    have hmark : Token.markAfter s.terminated t ts = (body.add (t :: ts)).leaves := by
      rw [Body.leaves_add, hmarks.inner body (by rw [hbodies]; rfl)]
    rw [hmark, hcase] at htracks
    rw [Step.tokens_eq hreads]
    refine ⟨body, outer, hbodies, ?_⟩
    cases htracks with
    | stays htags hterminated => exact absurd htags.symm (cons_ne_self _ _)
    | opens tag htags hjumped hterminated =>
      have hlength := congrArg List.length htags
      rw [length_cons, length_cons] at hlength
      dsimp only at hlength
      omega
    | closes tag htags hterminated hdedent hclosing =>
      refine ⟨hdedent, ?_⟩
      obtain ⟨rfl, -⟩ := cons.inj htags
      rw [Clause.render, Clause.fragment_of_closing? hclosing, Fragment.render, flatMap_append]
      exact congrArg (Fragment.render unit c.front ++ ·) (Closing.render_caseBody unit _ _)

/-- The body of the case ends with a loop. The jump in the loop does not count, and the dedent
behind it writes a `break`. -/
theorem case_body_breaks_loop :
    let words : List Text := ["switch", "x", ":", "<indent>", "case", "1", ":", "<indent>", "while", "y", ":",
      "<indent>", "break", "<dedent>", "<dedent>", "<dedent>"]
    let tokens : List Token := Stream.tokensOfWords 1 0 words
    ∃ before step after c, (History.run ("  " : String) tokens).steps = before ++ step :: after ∧
      step.outcome = .ok c ∧
      (Step.reached (.ofTokens tokens) before).scopes.tags = .caseBody :: step.after.scopes.tags ∧
      c.render ("  " : String) = Fragment.render ("  " : String) c.front ++ Text.breakLine ("  " : String) 2 := by
  intro words tokens
  generalize hsteps : (History.run ("  " : String) tokens).steps = steps
  have hfacts : (steps[4]?.map fun step => (step.outcome.toOption.isSome, step.after.stream.level,
      decide ((Step.reached (.ofTokens tokens) (steps.take 4)).scopes.tags = .caseBody :: step.after.scopes.tags),
      (Step.bodies (.ofTokens tokens) (steps.take 4) [[]]).head?.map fun body =>
        (Body.add body (step.tokens (Step.reached (.ofTokens tokens) (steps.take 4)))).leaves)) =
      some (true, 1, true, some false) := by
    rw [← hsteps]
    decide +kernel
  obtain ⟨step, hstep, hfacts⟩ := Option.map_eq_some_iff.mp hfacts
  simp only [Prod.mk.injEq, decide_eq_true_iff] at hfacts
  obtain ⟨hok, hlevel, hcase, hleaves⟩ := hfacts
  obtain ⟨c, hc⟩ : ∃ c, step.outcome = .ok c := by
    rcases houtcome : step.outcome with stop | c
    · rw [houtcome] at hok
      cases hok
    · exact ⟨c, rfl⟩
  have hsplit : (History.run ("  " : String) tokens).steps = steps.take 4 ++ step :: steps.drop 5 := by
    obtain ⟨hlt, rfl⟩ := List.getElem?_eq_some_iff.mp hstep
    rw [hsteps, ← drop_eq_getElem_cons hlt, take_append_drop]
  obtain ⟨body, outer, hbodies, -, hrender⟩ := case_body_breaks ("  " : String) tokens hsplit hc hcase
  rw [hbodies, head?_cons, Option.map_some, Option.some_inj] at hleaves
  rw [hleaves, hlevel] at hrender
  exact ⟨_, step, _, c, hsteps ▸ hsplit, hc, hcase, hrender⟩

end Offside
