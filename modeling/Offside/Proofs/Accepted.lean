/-
What is known about a source that is accepted.

Properties of the body follow by induction on the clauses, with what the scanner guarantees about
tokens: their neighbours (`Token.Adjacent`), their texts and the unit.
-/
import Offside.Proofs.Concatenation
import Offside.Proofs.Layout.Line
import Offside.Proofs.Translate.Soundness

set_option autoImplicit false

namespace Offside

open SourceHistory

/-! ## The unit -/

variable {unit source : Text}

/-- The unit of an accepted source is the one given, or blanks that lead a line. -/
theorem scan_unit {scanned : Scanned} (h : (scan unit source).outcome = .ok scanned) :
    scanned.unit = unit ∨ scanned.unit.Leading := by
  obtain ⟨s, hread, rfl⟩ := scan_ok_iff.mp h
  have hunit : s.unit = unit ∨ s.unit.Leading := by
    refine Reading.readLines_invariant (I := fun s => s.unit = unit ∨ s.unit.Leading) ?_ (.inl rfl) hread
    intro number line s s' h hreads
    rcases hreads.unit_cases with hkept | hfound
    · rwa [hkept]
    · rw [hfound]
      exact .inr (Reading.leading_indentation line)
  have hdefault : Stream.defaultUnit.Leading := List.all_eq_true.mp rfl
  dsimp only
  rw [Stream.unitOr]
  split
  · exact .inr hdefault
  · exact hunit

/-! ## The tokens and the clauses -/

/-- The tokens of an accepted source write its clauses, with no scope open at either end. -/
theorem SourceHistory.Accepts.written {h : History} (haccepts : Accepts unit source h) :
    ∃ scanned, (scan unit source).outcome = .ok scanned ∧ h.unit = scanned.unit ∧
      Clause.AllWritten [] h.clauses scanned.tokens [] := by
  obtain ⟨hrun, hstop⟩ := haccepts
  obtain ⟨scanned, hscan, rfl⟩ := history_eq hrun
  obtain ⟨hrest, htranslates⟩ := History.translates_of_stop? hstop
  have hchained : (Session.ofTokens scanned.tokens).reader.Chained :=
    (chain_of_scan hscan).imp fun t u hadjacent => hadjacent.raw
  obtain ⟨⟨ts, hreads, hwritten⟩, -⟩ := htranslates.written hchained
  have htokens : scanned.tokens = ts := by
    have hsplit : scanned.tokens = ts ++ _ := hreads.1
    rw [hsplit, hrest, List.append_nil]
  rw [(History.closed_final (laidOut_of_scan hscan) hstop).1, ← htokens] at hwritten
  exact ⟨scanned, hscan, rfl, hwritten⟩

/-- A run that can be evaluated shows that a source is accepted. -/
theorem SourceHistory.accepts_of_map {α : Type} {f : History → α} {a : α}
    (hrun : ((run unit source).history.toOption.map fun h => (h.stop?, f h)) = some (none, a)) :
    ∃ h, Accepts unit source h ∧ f h = a := by
  rcases hhistory : (run unit source).history with e | h
  · rw [hhistory] at hrun
    cases hrun
  · rw [hhistory] at hrun
    obtain ⟨hstop, ha⟩ := Prod.mk.inj (Option.some.inj hrun)
    exact ⟨h, ⟨hhistory, hstop⟩, ha⟩

theorem SourceHistory.accepts_of_run (unit source body : Text)
    (hrun : ((run unit source).history.toOption.map fun h => (h.stop?, h.body)) =
      some (none, body)) : ∃ h, Accepts unit source h ∧ h.body = body :=
  accepts_of_map hrun

end Offside
