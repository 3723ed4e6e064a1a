/-
Open scopes and indentation agree along a whole history.

As many scopes are open as indents exceed dedents, and that is the level which each token carries.
So the stack of the translator and the level of the scanner are one number.
-/
import Offside.Proofs.Layout.Scan
import Offside.Proofs.Translate.Run

set_option autoImplicit false

namespace Offside

open List Token Session

variable {lines : Nat} {source : Text} {s : Stream}

/-- The level of a stream is the balance of what was read. -/
theorem Stream.level_eq_balance {tokens : List Token} (h : LaidOut lines tokens)
    (hs : s.seen.reverse ++ s.rest = tokens) : s.level = Token.balance s.seen := by
  rw [Stream.level, Stream.current]
  rcases hseen : s.seen with _ | ⟨t, seen⟩
  · rfl
  · rw [hseen, reverse_cons, append_assoc] at hs
    rw [headD_cons, (h.level seen.reverse t s.rest hs.symm).1, balance_cons,
      balance_append, balance_reverse, Int.add_comm]

theorem Stream.Reads.tokens {tokens ts : List Token} (h : (Stream.ofTokens tokens).Reads ts s) :
    s.seen.reverse ++ s.rest = tokens := by
  have hseen : s.seen = ts.reverse ++ [] := h.2
  have hrest : tokens = ts ++ s.rest := h.1
  rw [hseen, hrest, append_nil, reverse_reverse]

variable {unit : Text}

namespace History

/-- Every step that succeeds leaves as many scopes open as it should. -/
theorem nested_of_step {tokens : List Token} {step : Step} {c : Clause} (hstep : step ∈ (run unit tokens).steps)
    (hok : step.outcome = .ok c) :
    step.after.stream.seen.reverse ++ step.after.stream.rest = tokens ∧ step.after.Nested 0 := by
  have hspec := sequence_spec (nested_ofTokens tokens) step hstep
  rw [hok] at hspec
  obtain ⟨hnested, ts, hreads⟩ := hspec
  exact ⟨hreads.tokens, hnested⟩

theorem translates_of_stop? {tokens : List Token} (h : (run unit tokens).stop? = none) :
    (run unit tokens).final.stream.rest = [] ∧
      (Session.ofTokens tokens).Translates (run unit tokens).clauses (run unit tokens).final := by
  rw [history_ofTokens] at h ⊢
  have hn : (Session.ofTokens tokens).remaining < tokens.length + 1 := Nat.lt_succ_self _
  rcases history_cases unit (nested_ofTokens tokens) hn with
    ⟨e, hreject⟩ | ⟨-, hrest, htranslates⟩
  · rw [hreject] at h
    cases h
  · exact ⟨hrest, htranslates⟩

/-- A run through all tokens of a layout leaves no scope open. -/
theorem closed_final {tokens : List Token} (hlaid : LaidOut lines tokens) (h : (run unit tokens).stop? = none) :
    (run unit tokens).final.scopes.tags = [] ∧ (run unit tokens).final.generics = [] := by
  obtain ⟨hrest, htranslates⟩ := translates_of_stop? h
  obtain ⟨hnested, ts, hreads⟩ := htranslates.nested (nested_ofTokens tokens)
  have htokens := hreads.tokens
  rw [hrest, append_nil] at htokens
  have hdepth := hnested.depth
  rw [← balance_reverse, htokens, hlaid.balance] at hdepth
  have htags : (run unit tokens).final.scopes.tags = [] :=
    length_eq_zero_iff.mp (Int.ofNat_eq_zero.mp hdepth)
  have hgenerics := hnested.generics
  rw [htags] at hgenerics
  exact ⟨htags, length_eq_zero_iff.mp hgenerics⟩

end History

/-- The history of a source is that of its tokens. -/
theorem SourceHistory.history_eq {h : History} (hrun : (SourceHistory.run unit source).history = .ok h) :
    ∃ scanned, (scan unit source).outcome = .ok scanned ∧ h = History.run scanned.unit scanned.tokens := by
  rw [SourceHistory.run] at hrun
  rcases hscan : (scan unit source).outcome with e | scanned
  · rw [hscan] at hrun
    cases hrun
  · rw [hscan] at hrun
    cases hrun
    exact ⟨scanned, rfl, rfl⟩

theorem SourceHistory.history_of_scan {scanned : Scanned} (hscan : (scan unit source).outcome = .ok scanned) :
    (SourceHistory.run unit source).history = .ok (History.run scanned.unit scanned.tokens) := by
  rw [SourceHistory.run, hscan]
  rfl

/-- After every step that succeeds the open scopes agree with the tokens read so far. In a source
they are moreover as many as the level says, and none is left open at the end. -/
theorem scopes_follow_indentation :
    (∀ unit tokens, ∀ step ∈ (History.run unit tokens).steps, ∀ c, step.outcome = .ok c →
      step.after.stream.seen.reverse ++ step.after.stream.rest = tokens ∧
        step.after.Nested 0) ∧
    ∀ unit source h, (SourceHistory.run unit source).history = .ok h → (∀ step ∈ h.steps, ∀ c, step.outcome = .ok c →
        (step.after.scopes.depth : Int) = step.after.stream.level) ∧
      (h.stop? = none → h.depth = 0) := by
  refine ⟨fun unit tokens step hstep c hok => History.nested_of_step hstep hok, ?_⟩
  intro unit source h hrun
  obtain ⟨scanned, hscan, rfl⟩ := SourceHistory.history_eq hrun
  have hlaid := laidOut_of_scan hscan
  refine ⟨?_, ?_⟩
  · intro step hstep c hok
    obtain ⟨htokens, hnested⟩ := History.nested_of_step hstep hok
    rw [Stream.level_eq_balance hlaid htokens, hnested.depth, Int.add_zero]
  · intro hstop
    rw [History.depth, Scopes.depth, (History.closed_final hlaid hstop).1]
    rfl

/-- A loop that the source accepts leaves no scope open. -/
theorem scopes_follow_indentation_loop :
    ∃ h, (SourceHistory.run ("  " : String) ("while a:\n  pass\n" : String)).history = .ok h ∧ h.depth = 0 := by
  have hstop : ((SourceHistory.run ("  " : String)
      ("while a:\n  pass\n" : String)).history.toOption.map History.stop?) = some none := by
    decide +kernel
  rcases hrun : (SourceHistory.run ("  " : String) ("while a:\n  pass\n" : String)).history with
    e | h
  · rw [hrun] at hstop
    cases hstop
  · rw [hrun] at hstop
    exact ⟨h, rfl, (scopes_follow_indentation.2 _ _ h hrun).2 (Option.some.inj hstop)⟩

end Offside
