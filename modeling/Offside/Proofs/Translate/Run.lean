/-
From one clause to a whole history.

`Session.Runs` is a chain of steps that succeed, which can be cut, joined and moved to other tokens;
`Session.Translates` keeps their clauses only. A history is a chain and perhaps one more step, which
rejects a token.
-/
import Offside.Proofs.Translate.Safety
import Offside.Translate.History

set_option autoImplicit false

namespace Offside

open List Session History

variable {t : Token} {s s' : Session} {rest : List Token} {cs : List Clause}
variable {c : Clause}

namespace Session

def start (s : Session) (t : Token) (rest : List Token) : Session :=
  { s with reader := s.reader.advance t rest }

theorem nested_ofTokens (tokens : List Token) : (ofTokens tokens).Nested 0 where
  depth := rfl
  generics := rfl
  cases := by
    intro tags hsuffix
    cases suffix_nil.mp hsuffix
  comment := fun h => nomatch h
  passthrough := fun h => nomatch h

theorem Nested.start (h : s.Nested 0) : (s.start t rest).Settled (s.start t rest).stream (-Token.balance [t]) where
  depth := by
    have hdepth : (s.scopes.depth : Int) = Token.balance s.stream.seen + 0 := h.depth
    have hseen : (s.start t rest).stream.seen = t :: s.stream.seen := rfl
    have hscopes : (s.start t rest).scopes = s.scopes := rfl
    rw [hseen, hscopes, Token.balance_cons]
    omega
  generics := h.generics
  cases := h.cases
  comment := h.comment
  passthrough := h.passthrough
  reads := ⟨[], Stream.Reads.refl _⟩

/-- A clause keeps the scopes in step with its tokens. -/
theorem Nested.clause (h : s.Nested 0) (hrest : s.stream.rest = t :: rest)
    (hclause : Translate.clause t (s.start t rest) = .ok c s') :
    s'.Nested 0 ∧ ∃ ts, s.stream.Reads (t :: ts) s'.stream := by
  have hsettled := (Translate.clause_spec h.start).of_ok hclause
  obtain ⟨ts, hts⟩ := hsettled.reads
  have hread : s.stream.Reads [t] (s.start t rest).stream := ⟨hrest, rfl⟩
  exact ⟨hsettled.toNested, ts, hread.trans hts⟩

/-- A clause reads at least one token. -/
theorem Nested.progress (h : s.Nested 0) (hrest : s.stream.rest = t :: rest)
    (hclause : Translate.clause t (s.start t rest) = .ok c s') : s'.remaining < s.remaining := by
  obtain ⟨-, ts, hreads⟩ := h.clause hrest hclause
  have hlen := hreads.remaining
  rw [length_cons] at hlen
  rw [remaining, remaining]
  omega

/-! ## One step -/

theorem next?_nil (h : s.stream.rest = []) : Step.next? .forward s = none := by
  rw [Step.next?, Feed.forward, h]
  rfl

theorem next?_cons (hrest : s.stream.rest = t :: rest) :
    Step.next? .forward s = some (match Translate.clause t (s.start t rest) with
      | .ok clause after =>
        if after.remaining < s.remaining then ⟨t, .ok clause, after⟩
        else ⟨t, .error (.violated (Step.noProgress t.line)), after⟩
      | .error stop after => ⟨t, .error stop, after⟩) := by
  rw [Step.next?, Feed.forward, hrest]
  rfl

/-- A clause that can be translated is a step. -/
theorem next?_ok (h : s.Nested 0) (hrest : s.stream.rest = t :: rest)
    (hclause : Translate.clause t (s.start t rest) = .ok c s') : Step.next? .forward s = some ⟨t, .ok c, s'⟩ := by
  rw [next?_cons hrest, hclause]
  dsimp only
  rw [if_pos (h.progress hrest hclause)]

/-- What a step can be: at the end of the input there is none, and otherwise its clause succeeds or
is rejected. -/
theorem next?_cases (h : s.Nested 0) : (s.stream.rest = [] ∧ Step.next? .forward s = none) ∨
    (∃ t rest c s', s.stream.rest = t :: rest ∧ Translate.clause t (s.start t rest) = .ok c s' ∧
      Step.next? .forward s = some ⟨t, .ok c, s'⟩) ∨
    (∃ t e s', Step.next? .forward s = some ⟨t, .error (.rejected e), s'⟩) := by
  rcases hrest : s.stream.rest with _ | ⟨t, rest⟩
  · exact .inl ⟨rfl, next?_nil hrest⟩
  rcases hclause : Translate.clause t (s.start t rest) with ⟨c, s'⟩ | ⟨stop, s'⟩
  · exact .inr (.inl ⟨t, rest, c, s', rfl, hclause, next?_ok h hrest hclause⟩)
  · obtain ⟨e, rfl⟩ := (Translate.clause_spec h.start).rejected_of_error hclause
    refine .inr (.inr ⟨t, e, s', ?_⟩)
    rw [next?_cons hrest, hclause]

/-! ## Chains -/

/-- The steps lead from `s` to `s'`, and all of them succeed. -/
inductive Runs : Session → List Step → Session → Prop
  | nil (s : Session) : Runs s [] s
  | cons {s s₁ s' : Session} {t : Token} {rest : List Token} {c : Clause} {steps : List Step}
      (hrest : s.stream.rest = t :: rest) (hclause : Translate.clause t (s.start t rest) = .ok c s₁)
      (h : Runs s₁ steps s') : Runs s (⟨t, .ok c, s₁⟩ :: steps) s'

/-- Translating clause after clause leads from `s` to `s'`, and the clauses are `cs`. -/
inductive Translates : Session → List Clause → Session → Prop
  | refl (s : Session) : Translates s [] s
  | step {s s₁ s' : Session} {t : Token} {rest : List Token} {c : Clause} {cs : List Clause}
      (hrest : s.stream.rest = t :: rest)
      (hclause : Translate.clause t (s.start t rest) = .ok c s₁)
      (h : Translates s₁ cs s') : Translates s (c :: cs) s'

section

variable {steps before after : List Step}

theorem Runs.translates (h : s.Runs steps s') :
    s.Translates (steps.filterMap fun step => step.outcome.toOption) s' := by
  induction h with
  | nil s => exact .refl s
  | cons hrest hclause _ ih => exact .step hrest hclause ih

theorem Translates.runs (h : s.Translates cs s') :
    ∃ steps, s.Runs steps s' ∧ (steps.filterMap fun step => step.outcome.toOption) = cs := by
  induction h with
  | refl s => exact ⟨[], .nil s, rfl⟩
  | step hrest hclause _ ih =>
    obtain ⟨steps, hsteps, rfl⟩ := ih
    exact ⟨_, .cons hrest hclause hsteps, rfl⟩

theorem Runs.final (h : s.Runs steps s') : (steps.getLast?.map Step.after).getD s = s' := by
  induction h with
  | nil => rfl
  | cons hrest hclause h ih =>
    rw [getLast?_cons, Option.map_some, Option.getD_some, ← ih]
    exact (Option.getD_map Step.after _ _).symm

/-- A run can be cut anywhere. -/
theorem Runs.split (h : s.Runs (before ++ after) s') : ∃ s₁, s.Runs before s₁ ∧ s₁.Runs after s' := by
  induction before generalizing s with
  | nil => exact ⟨s, .nil s, h⟩
  | cons step before ih =>
    cases h with
    | cons hrest hclause h =>
      obtain ⟨s₁, hbefore, hafter⟩ := ih h
      exact ⟨s₁, .cons hrest hclause hbefore, hafter⟩

/-- A run reads the tokens of its steps. -/
theorem Runs.reads (h : s.Runs steps s') (hs : s.Nested 0) : s'.Nested 0 ∧ ∃ ts, s.stream.Reads ts s'.stream := by
  induction h with
  | nil s => exact ⟨hs, [], Stream.Reads.refl _⟩
  | cons hrest hclause h ih =>
    obtain ⟨h₁, ts, hts⟩ := hs.clause hrest hclause
    obtain ⟨h₂, us, hus⟩ := ih h₁
    exact ⟨h₂, _, hts.trans hus⟩

theorem Runs.mem (h : s.Runs steps s') (hs : s.Nested 0) : ∀ step ∈ steps, (∃ c, step.outcome = .ok c) ∧
    step.after.Nested 0 ∧ ∃ ts, s.stream.Reads ts step.after.stream := by
  induction h with
  | nil => exact forall_mem_nil _
  | cons hrest hclause h ih =>
    obtain ⟨h₁, ts, hts⟩ := hs.clause hrest hclause
    refine forall_mem_cons.mpr ⟨⟨⟨_, rfl⟩, h₁, _, hts⟩, fun step hstep => ?_⟩
    obtain ⟨hok, hnested, us, hus⟩ := ih h₁ step hstep
    exact ⟨hok, hnested, _, hts.trans hus⟩

end

/-- Runs can be joined. -/
theorem Translates.append {s₁ : Session} {ds : List Clause} (h : s.Translates cs s₁) (h' : s₁.Translates ds s') :
    s.Translates (cs ++ ds) s' := by
  induction h with
  | refl s => exact h'
  | step hrest hclause _ ih => exact .step hrest hclause (ih h')

theorem Translates.nested (h : s.Translates cs s') (hs : s.Nested 0) :
    s'.Nested 0 ∧ ∃ ts, s.stream.Reads ts s'.stream := by
  obtain ⟨steps, hruns, -⟩ := h.runs
  exact hruns.reads hs

/-! ## Histories -/

def history (unit : Text) (count : Nat) (s : Session) : History :=
  { unit := unit, start := s, steps := Step.sequence .forward count s }

theorem history_ofTokens (unit : Text) (tokens : List Token) :
    History.run unit tokens = (ofTokens tokens).history unit (tokens.length + 1) := rfl

section

variable {unit : Text} {n : Nat} {s s' : Session} {t : Token} {c : Clause} {steps : List Step}

theorem sequence_none (h : Step.next? .forward s = none) : Step.sequence .forward n s = [] := by
  cases n with
  | zero => rfl
  | succ n => rw [Step.sequence, h]

theorem sequence_ok (h : Step.next? .forward s = some ⟨t, .ok c, s'⟩) :
    Step.sequence .forward (n + 1) s = ⟨t, .ok c, s'⟩ :: Step.sequence .forward n s' := by
  rw [Step.sequence, h]

theorem sequence_error {stop : Stop} (h : Step.next? .forward s = some ⟨t, .error stop, s'⟩) :
    Step.sequence .forward (n + 1) s = [⟨t, .error stop, s'⟩] := by
  rw [Step.sequence, h]

/-- A step comes first, and then the rest of the history. -/
theorem history_ok (unit : Text) (n : Nat) (h : Step.next? .forward s = some ⟨t, .ok c, s'⟩) :
    (s.history unit (n + 1)).stop? = (s'.history unit n).stop? ∧
      (s.history unit (n + 1)).final = (s'.history unit n).final ∧
      (s.history unit (n + 1)).clauses = c :: (s'.history unit n).clauses := by
  unfold history stop? History.final clauses
  rw [sequence_ok h]
  rcases hsteps : Step.sequence .forward n s' with _ | ⟨step, steps⟩
  · exact ⟨rfl, rfl, rfl⟩
  · dsimp only
    rw [getLast?_cons_cons]
    exact ⟨rfl, by rw [getLast?_cons]; rfl, rfl⟩

/-- A history is a chain of steps, and perhaps one more that rejects a token. Without it the chain
leads to the end of the input, if there are enough steps for that. -/
theorem exists_runs (h : s.Nested 0) (n : Nat) : ∃ steps s', s.Runs steps s' ∧
    (Step.sequence .forward n s = steps ∧ (s.remaining < n → s'.stream.rest = []) ∨
      ∃ t e s₁, Step.sequence .forward n s = steps ++ [⟨t, .error (.rejected e), s₁⟩]) := by
  induction n generalizing s with
  | zero => exact ⟨[], s, .nil s, .inl ⟨rfl, fun hn => absurd hn (Nat.not_lt_zero _)⟩⟩
  | succ n ih =>
    rcases next?_cases h with ⟨hrest, hnext⟩ | ⟨t, rest, c, s₁, hrest, hclause, hnext⟩ | ⟨t, e, s₁, hnext⟩
    · exact ⟨[], s, .nil s, .inl ⟨sequence_none hnext, fun _ => hrest⟩⟩
    · have hprogress := h.progress hrest hclause
      obtain ⟨steps, s', hruns, hsteps⟩ := ih (h.clause hrest hclause).1
      refine ⟨_, s', .cons hrest hclause hruns, ?_⟩
      rw [sequence_ok hnext]
      rcases hsteps with ⟨hsteps, hend⟩ | ⟨u, e, s₂, hsteps⟩
      · exact .inl ⟨by rw [hsteps], fun hn => hend (by omega)⟩
      · exact .inr ⟨u, e, s₂, by rw [hsteps]; rfl⟩
    · exact ⟨[], s, .nil s, .inr ⟨t, e, s₁, sequence_error hnext⟩⟩

/-- A run to the end of the input is all there is. -/
theorem Runs.sequence (h : s.Runs steps s') (hs : s.Nested 0) (hn : s.remaining < n) (hend : s'.stream.rest = []) :
    Step.sequence .forward n s = steps := by
  induction h generalizing n with
  | nil s => exact sequence_none (next?_nil hend)
  | @cons s s₁ s' t rest c steps hrest hclause h ih =>
    obtain ⟨n, rfl⟩ : ∃ m, n = m + 1 := ⟨n - 1, by omega⟩
    have hprogress := hs.progress hrest hclause
    rw [sequence_ok (next?_ok hs hrest hclause), ih (n := n) (hs.clause hrest hclause).1 (by omega) hend]

theorem Runs.history {h : History} (hruns : h.start.Runs h.steps s') (hs : h.start.Nested 0) :
    h.stop? = none ∧ h.final = s' := by
  refine ⟨?_, hruns.final⟩
  rw [stop?]
  split
  · next stop after hlast =>
    obtain ⟨⟨c, hc⟩, -⟩ := hruns.mem hs _ (mem_of_getLast? hlast)
    cases hc
  · rfl

/-- A history rejects a token or translates all of them. -/
theorem history_cases (unit : Text) (h : s.Nested 0) (hn : s.remaining < n) :
    (∃ e, (s.history unit n).stop? = some (.rejected e)) ∨
    ((s.history unit n).stop? = none ∧ (s.history unit n).final.stream.rest = [] ∧
      s.Translates (s.history unit n).clauses (s.history unit n).final) := by
  obtain ⟨steps, s', hruns, ⟨rfl, hend⟩ | ⟨t, e, s₁, hsteps⟩⟩ := exists_runs h n
  · obtain ⟨hstop, hfinal⟩ := hruns.history (h := s.history unit n) h
    rw [hfinal]
    exact .inr ⟨hstop, hend hn, hruns.translates⟩
  · refine .inl ⟨e, ?_⟩
    rw [history, stop?, hsteps, getLast?_concat]

theorem translates_history (unit : Text) (n : Nat) (h : s.Nested 0) :
    ∃ s', s.Translates (s.history unit n).clauses s' := by
  obtain ⟨steps, s', hruns, ⟨rfl, -⟩ | ⟨t, e, s₁, hsteps⟩⟩ := exists_runs h n
  · exact ⟨s', hruns.translates⟩
  · refine ⟨s', ?_⟩
    rw [history, clauses, hsteps, filterMap_append]
    exact (append_nil _).symm ▸ hruns.translates

/-- A run to the end is the history. -/
theorem history_of_translates (unit : Text) (h : s.Nested 0) (hn : s.remaining < n)
    (htranslates : s.Translates cs s') (hend : s'.stream.rest = []) :
    (s.history unit n).stop? = none ∧ (s.history unit n).final = s' ∧ (s.history unit n).clauses = cs := by
  obtain ⟨steps, hruns, rfl⟩ := htranslates.runs
  obtain rfl := hruns.sequence h hn hend
  obtain ⟨hstop, hfinal⟩ := hruns.history (h := s.history unit n) h
  exact ⟨hstop, hfinal, rfl⟩

/-- Every step of a history succeeds or rejects a token. After one that succeeds the session is as
it should be, and has read on in the same tokens. -/
theorem sequence_spec (h : s.Nested 0) : ∀ step ∈ Step.sequence .forward n s, match step.outcome with
      | .ok _ => step.after.Nested 0 ∧ ∃ ts, s.stream.Reads ts step.after.stream
      | .error (.rejected _) => True
      | .error (.violated _) => False := by
  intro step hstep
  obtain ⟨steps, s', hruns, hsteps⟩ := exists_runs h n
  have hcases : step ∈ steps ∨ ∃ e, step.outcome = .error (.rejected e) := by
    rcases hsteps with ⟨hsteps, -⟩ | ⟨t, e, s₁, hsteps⟩
    · rw [hsteps] at hstep
      exact .inl hstep
    · rw [hsteps, mem_append, mem_singleton] at hstep
      exact hstep.imp_right fun hlast => ⟨e, by rw [hlast]⟩
  rcases hcases with hmem | ⟨e, he⟩
  · obtain ⟨⟨c, hc⟩, hspec⟩ := hruns.mem h step hmem
    rw [hc]
    exact hspec
  · rw [he]
    trivial

/-- The first steps of a history are a chain, if the last of them succeeds. -/
theorem runs_of_prefix (h : s.Nested 0) (hsteps : steps <+: Step.sequence .forward n s)
    (hok : ∀ step ∈ steps.getLast?, ∃ c, step.outcome = .ok c) : ∃ s', s.Runs steps s' := by
  obtain ⟨all, s', hruns, hall⟩ := exists_runs h n
  have hchain : steps <+: all := by
    rcases hall with ⟨hall, -⟩ | ⟨t, e, s₁, hall⟩
    · rw [hall] at hsteps
      exact hsteps
    · rw [hall, prefix_concat_iff] at hsteps
      refine hsteps.resolve_left ?_
      rintro rfl
      obtain ⟨c, hc⟩ := hok _ getLast?_concat
      cases hc
  obtain ⟨after, rfl⟩ := hchain
  obtain ⟨s₁, hfirst, -⟩ := hruns.split
  exact ⟨s₁, hfirst⟩

end

end Session

namespace History

theorem run_of_translates {tokens : List Token} {s : Session} (unit : Text)
    (h : (ofTokens tokens).Translates cs s) (hend : s.stream.rest = []) :
    (run unit tokens).stop? = none ∧ (run unit tokens).final = s ∧ (run unit tokens).clauses = cs :=
  history_of_translates unit (nested_ofTokens tokens) (Nat.lt_succ_self _) h hend

def Ends (h : History) : Prop :=
  (∃ e, h.stop? = some (.rejected e)) ∨ (h.stop? = none ∧ h.final.stream.rest = [])

/-- Every history ends in one of these ways. -/
theorem ends_run (unit : Text) (tokens : List Token) : (run unit tokens).Ends := by
  rw [history_ofTokens]
  have hn : (ofTokens tokens).remaining < tokens.length + 1 := Nat.lt_succ_self _
  rcases history_cases unit (nested_ofTokens tokens) hn with
    hreject | ⟨hstop, hrest, -⟩
  · exact .inl hreject
  · exact .inr ⟨hstop, hrest⟩

/-- Translating ends with a result or at a token that is rejected, and breaks no rule of the
library, whatever the tokens are. Source text may moreover fail to scan. -/
theorem run_violates_nothing (unit : Text) : (∀ tokens, (run unit tokens).Ends ∧
      ∀ step ∈ (run unit tokens).steps, ∀ v, step.outcome ≠ .error (.violated v)) ∧
    ∀ source, (∃ e, (SourceHistory.run unit source).history = .error e) ∨
      ∃ h, (SourceHistory.run unit source).history = .ok h ∧ h.Ends ∧
        ∀ step ∈ h.steps, ∀ v, step.outcome ≠ .error (.violated v) := by
  have hsteps : ∀ (unit : Text) (tokens : List Token),
      ∀ step ∈ (run unit tokens).steps, ∀ v, step.outcome ≠ .error (.violated v) := by
    intro unit tokens step hstep v hviolated
    have hspec := Session.sequence_spec (Session.nested_ofTokens tokens) step hstep
    rw [hviolated] at hspec
    exact hspec
  refine ⟨fun tokens => ⟨ends_run unit tokens, hsteps unit tokens⟩, fun source => ?_⟩
  rcases hscan : (scan unit source).outcome with e | scanned
  · left
    exact ⟨e, by rw [SourceHistory.run, hscan]; rfl⟩
  · right
    refine ⟨run scanned.unit scanned.tokens, ?_, ends_run _ _, hsteps _ _⟩
    rw [SourceHistory.run, hscan]
    rfl

end History

end Offside
