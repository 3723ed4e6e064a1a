/-
The result of a history that stops.

A step depends on the tokens that it reads and on nothing after them, so the steps before a stop are
the history of the tokens that they have read.
-/
import Offside.Proofs.Nesting
import Offside.Proofs.Translate.Trimming

set_option autoImplicit false

namespace Offside

open List Session

def Step.past (step : Step) : Step := { step with after := cut step.after [] }

variable {n : Nat} {h : History}
variable {step : Step} {unit : Text} {us vs after tokens : List Token}

namespace Session

variable {s s' : Session} {steps : List Step}

/-! ## Steps without what comes after them -/

theorem Nested.cut (h : s.Nested 0) (ts : List Token) : (Offside.cut s ts).Nested 0 :=
  ⟨h.depth, h.generics, h.cases, h.comment, h.passthrough⟩

/-- A clause is the same without the tokens behind it. -/
theorem clause_cut {t : Token} {c : Clause} (hs : s.Nested 0)
    (hclause : Translate.clause t (s.start t (us ++ after)) = .ok c s') (hs' : s'.stream.rest = vs ++ after) :
    Translate.clause t ((cut s (t :: us)).start t us) = .ok c (cut s' vs) := by
  have hstart : (cut s (t :: us)).start t us = cut (s.start t (us ++ after)) us := rfl
  rw [hstart]
  by_cases hafter : after = []
  · rw [hafter, append_nil] at hclause hs'
    have hcut : cut s' vs = s' := by rw [← hs']; rfl
    rw [hafter, append_nil, hcut]
    exact hclause
  · rcases (Translate.clause_exact t).agrees hclause rfl hs' hafter (fun hk => nomatch hk) with
      hp | ⟨v, s'', hp⟩
    · exact hp
    · -- The budget is enough for the tokens that are left.
      rw [← hstart] at hp
      obtain ⟨e, he⟩ := (Translate.clause_spec (hs.cut (t :: us)).start).rejected_of_error hp
      cases he

/-- So are the clauses of a run. -/
theorem Runs.cut (h : s.Runs steps s') (hs : s.Nested 0) (hus : s.stream.rest = us ++ after)
    (hvs : s'.stream.rest = vs ++ after) : ∃ steps', (Offside.cut s us).Runs steps' (Offside.cut s' vs) ∧
      steps'.map Step.past = steps.map Step.past := by
  induction h generalizing us with
  | nil s =>
    obtain rfl := append_cancel_right (hus.symm.trans hvs)
    exact ⟨[], .nil _, rfl⟩
  | @cons s s₁ s' t rest c steps hrest hclause h ih =>
    -- What comes after the last step comes after this one too.
    obtain ⟨h₁, ts, hts⟩ := hs.clause hrest hclause
    obtain ⟨-, ws, hws⟩ := h.reads h₁
    have hrest₁ : s₁.stream.rest = (ws ++ vs) ++ after := by
      rw [hws.1, hvs, append_assoc]
    have hall : us ++ after = (t :: (ts ++ (ws ++ vs))) ++ after := by
      rw [← hus, hts.1, hrest₁]
      simp
    obtain rfl := append_cancel_right hall
    obtain rfl : rest = (ts ++ (ws ++ vs)) ++ after := by
      rw [hrest] at hus
      exact (cons.inj hus).2
    obtain ⟨steps', hsteps', hpast⟩ := ih h₁ hrest₁ hvs
    refine ⟨_, .cons rfl (clause_cut hs hclause hrest₁) hsteps', ?_⟩
    rw [map_cons, map_cons, hpast]
    rfl

end Session

/-! ## Histories -/

namespace History

def upTo (h : History) (k : Nat) : History := { h with steps := h.steps.take k }

def consumed (h : History) : List Token := h.final.stream.seen.reverse

theorem clauses_eq_of_past {h' : History} (hsteps : h.steps.map Step.past = h'.steps.map Step.past) :
    h.clauses = h'.clauses := by
  have hmap : ∀ h : History, h.clauses = (h.steps.map Step.past).filterMap fun step =>
      step.outcome.toOption := by
    intro h
    rw [filterMap_map]
    rfl
  rw [hmap, hmap, hsteps]

theorem clauses_of_stop? {stop : Stop} (hstop : h.stop? = some stop) :
    h.clauses = (h.upTo (h.steps.length - 1)).clauses := by
  rw [stop?] at hstop
  split at hstop
  · next token stop' after hlast =>
    have hsplit := dropLast_append_getLast? _ hlast
    have hupTo : (h.upTo (h.steps.length - 1)).steps = h.steps.dropLast := dropLast_eq_take.symm
    rw [clauses, clauses, hupTo]
    conv_lhs => rw [← hsplit]
    rw [filterMap_append]
    exact append_nil _
  · cases hstop

theorem outcome_of_mem_take (hstep : step ∈ (run unit tokens).steps.take ((run unit tokens).steps.length - 1)) :
    ∃ c, step.outcome = .ok c := by
  have hnested := nested_ofTokens tokens
  obtain ⟨steps, s, hruns, hsteps⟩ := exists_runs hnested (tokens.length + 1)
  refine (hruns.mem hnested step ?_).1
  have hrun : (run unit tokens).steps = Step.sequence .forward (tokens.length + 1) (.ofTokens tokens) := rfl
  rw [← dropLast_eq_take, hrun] at hstep
  rcases hsteps with ⟨hsteps, -⟩ | ⟨t, e, s₁, hsteps⟩
  · rw [hsteps] at hstep
    exact mem_of_mem_dropLast hstep
  · rw [hsteps, dropLast_concat] at hstep
    exact hstep

/-- The first steps of a history are the history of the tokens they read. -/
theorem run_upTo {k : Nat} (hok : ∀ step ∈ (run unit tokens).steps.take k, ∃ c, step.outcome = .ok c) :
    ((run unit tokens).upTo k).consumed ++ ((run unit tokens).upTo k).final.stream.rest = tokens ∧
      (run unit ((run unit tokens).upTo k).consumed).stop? = none ∧
      (run unit ((run unit tokens).upTo k).consumed).final = cut ((run unit tokens).upTo k).final [] ∧
      (run unit ((run unit tokens).upTo k).consumed).steps.map Step.past =
        ((run unit tokens).upTo k).steps.map Step.past := by
  have hnested := nested_ofTokens tokens
  obtain ⟨s, hruns⟩ := runs_of_prefix (n := tokens.length + 1) hnested (List.take_prefix k _)
    fun step hstep => hok step (mem_of_getLast? hstep)
  have hfinal : ((run unit tokens).upTo k).final = s := hruns.final
  obtain ⟨-, ts, hreads⟩ := hruns.reads hnested
  have htokens := hreads.tokens
  rw [consumed, hfinal]
  have hrest : (ofTokens tokens).stream.rest = s.stream.seen.reverse ++ s.stream.rest :=
    htokens.symm
  have hend : s.stream.rest = [] ++ s.stream.rest := rfl
  obtain ⟨steps, hsteps, hpast⟩ := hruns.cut hnested hrest hend
  obtain rfl := hsteps.sequence (n := s.stream.seen.reverse.length + 1) (hnested.cut _) (Nat.lt_succ_self _) rfl
  obtain ⟨hstop, hfinal'⟩ := hsteps.history (h := run unit s.stream.seen.reverse) (hnested.cut _)
  exact ⟨htokens, hstop, hfinal', hpast⟩

/-- What has been translated does not depend on what comes later. The first steps of a history, if
they succeed, are the history of the tokens that they read. So the body of a history that stops is
the body of the tokens before the step that stops. -/
theorem run_consumed (unit : Text) (tokens : List Token) : (∀ k ≤ (run unit tokens).steps.length,
      (∀ step ∈ (run unit tokens).steps.take k, ∃ c, step.outcome = .ok c) →
      ∃ consumed rest, tokens = consumed ++ rest ∧
        consumed = ((run unit tokens).upTo k).consumed ∧
        (run unit consumed).stop? = none ∧
        (run unit consumed).steps.length = k ∧
        (run unit consumed).steps.map Step.past = ((run unit tokens).upTo k).steps.map Step.past ∧
        (run unit consumed).texts = ((run unit tokens).upTo k).texts ∧
        (run unit consumed).final.scopes = ((run unit tokens).upTo k).final.scopes ∧
        (run unit consumed).helpers = ((run unit tokens).upTo k).helpers) ∧
    ∀ stop, (run unit tokens).stop? = some stop →
      ∃ consumed, consumed = ((run unit tokens).upTo ((run unit tokens).steps.length - 1)).consumed ∧
        (run unit consumed).stop? = none ∧ (run unit consumed).body = (run unit tokens).body := by
  refine ⟨fun k hk hok => ?_, fun stop hstop => ?_⟩
  · obtain ⟨htokens, hstop, hfinal, hpast⟩ := run_upTo hok
    refine ⟨_, _, htokens.symm, rfl, hstop, ?_, hpast, ?_, ?_, ?_⟩
    · have hlen := congrArg List.length hpast
      have hsteps : ((run unit tokens).upTo k).steps = (run unit tokens).steps.take k := rfl
      rw [length_map, length_map, hsteps, length_take] at hlen
      rw [hlen]
      exact Nat.min_eq_left hk
    · exact congrArg (List.map (Clause.render unit)) (clauses_eq_of_past hpast)
    · rw [hfinal]
      rfl
    · rw [helpers, hfinal]
      rfl
  · obtain ⟨-, hnone, -, hpast⟩ := run_upTo fun step hstep => outcome_of_mem_take hstep
    refine ⟨_, rfl, hnone, ?_⟩
    have hbody : ∀ h : History, h.body = (h.clauses.map (Clause.render h.unit)).flatten := fun _ => rfl
    rw [hbody, hbody, clauses_of_stop? hstop, clauses_eq_of_past hpast]
    rfl

/-- A call, and a line that starts with `else`. The call is the first step, and the body when the
second one stops is the body of the call. -/
theorem run_consumed_else :
    ∃ tokens stop, tokens = Stream.tokensOfWords 1 0 ["f", "(", ")", "<newline>", "else", ":"] ∧
      (run [] tokens).stop? = some stop ∧
      (∃ consumed rest, tokens = consumed ++ rest ∧ (run [] consumed).steps.length = 1 ∧
        (run [] consumed).texts = ((run [] tokens).upTo 1).texts) ∧
      ∃ consumed, (run [] consumed).stop? = none ∧ (run [] consumed).body = ("f();\n" : String) := by
  obtain ⟨hfirst, hlast⟩ :=
    run_consumed [] (Stream.tokensOfWords 1 0 ["f", "(", ")", "<newline>", "else", ":"])
  have hsteps : (run [] (Stream.tokensOfWords 1 0
      ["f", "(", ")", "<newline>", "else", ":"])).steps.map (·.outcome.toOption.isSome) =
      [true, false] := by decide +kernel
  have hlength : (run [] (Stream.tokensOfWords 1 0
      ["f", "(", ")", "<newline>", "else", ":"])).steps.length = 2 := by
    rw [← length_map (·.outcome.toOption.isSome), hsteps]
    rfl
  have hstop : (run [] (Stream.tokensOfWords 1 0
      ["f", "(", ")", "<newline>", "else", ":"])).stop?.isSome = true := by decide +kernel
  have hbody : (run [] (Stream.tokensOfWords 1 0
      ["f", "(", ")", "<newline>", "else", ":"])).body = ("f();\n" : String) := by decide +kernel
  obtain ⟨stop, hstop⟩ := Option.isSome_iff_exists.mp hstop
  obtain ⟨consumed, -, hnone, hsame⟩ := hlast stop hstop
  have hok : ∀ step ∈ (run [] (Stream.tokensOfWords 1 0
      ["f", "(", ")", "<newline>", "else", ":"])).steps.take ((run [] (Stream.tokensOfWords 1 0
        ["f", "(", ")", "<newline>", "else", ":"])).steps.length - 1), ∃ c, step.outcome = .ok c :=
    fun _ => outcome_of_mem_take
  rw [hlength] at hok
  obtain ⟨consumed₁, rest, htokens, -, -, hone, -, htexts, -⟩ := hfirst 1 (by omega) hok
  exact ⟨_, stop, rfl, hstop, ⟨consumed₁, rest, htokens, hone, htexts⟩, consumed, hnone, hsame.trans hbody⟩

end History

end Offside
