/-
Translating one source after another.

At the seam between two accepted sources no scope is open. All that the first leaves behind is a
block that nothing may continue, a mark that no case body reads, and its helpers.
-/
import Offside.Proofs.Layout.Concatenation
import Offside.Proofs.Nesting
import Offside.Proofs.Translate.Locality

set_option autoImplicit false

namespace Offside

open List Token Translate

/-! ## The seam -/

variable {rest tokens : List Token}
variable {unit : Text} {s : Session}

namespace Session

theorem endsLine_ofTokens (h : ∀ t ∈ tokens.getLast?, t.isMarker) : (ofTokens tokens).stream.EndsLine := by
  have hall : (ofTokens tokens).stream.rest.reverse ++ (ofTokens tokens).stream.seen
      = tokens.reverse := append_nil _
  rw [Stream.EndsLine, hall, head?_reverse]
  exact h

theorem follows_ofTokens (after : List Token) (h : ∀ t ∈ tokens.getLast?, t.isMarker) :
    (ofTokens tokens).Follows (.elsewhere after [] false) (ofTokens (tokens ++ after)) where
  reader := ⟨⟨tokens, forall₂_same.mpr fun t _ => Placement.same_elsewhere t.line, rfl⟩, rfl⟩
  ends := endsLine_ofTokens h
  last := .inl fun _ => rfl
  tags := rfl
  previous := .inl rfl
  generics := rfl
  terminated := fun hmem => nomatch hmem
  trace := fun _ => rfl
  begun := fun hbegun => nomatch hbegun

theorem clause_begin {t : Token} (ht : t.is Marker.begin.text) (htrace : s.trace = []) :
    clause t s = .ok .start { s with trace := [⟨t, s.scopes.describe⟩] } := by
  have hrecord : recordDispatch t s
      = .ok s.trace.isEmpty { s with trace := ⟨t, s.scopes.describe⟩ :: s.trace } := rfl
  rw [htrace] at hrecord
  change clauseIn (s.remaining + 1) t s = _
  rw [clauseIn, lexeme_of_is_marker ht, bind_of_ok _ hrecord, (is_iff.mp ht).1]
  rfl

/-- Every run begins with the token that starts a source. -/
theorem Translates.of_begin {clauses : List Clause} (h : (ofTokens (Row.start :: rest)).Translates clauses s)
    (hend : s.stream.rest = []) : ∃ clauses' d, clauses = .start :: clauses' ∧
      ({ (ofTokens (Row.start :: rest)).start Row.start rest with trace := [d] } :
        Session).Translates clauses' s := by
  rcases h with _ | ⟨hfirst, hclause, h⟩
  · cases hend
  · obtain ⟨rfl, rfl⟩ := cons.inj hfirst
    rw [clause_begin Row.start_is rfl] at hclause
    cases hclause
    exact ⟨_, _, rfl, h⟩

/-- The session after the marker of the start may as well go on elsewhere. None of its own scopes is
open there, and whatever else another source has left behind is not looked at. -/
theorem follows_seam {w : Placement} {u : Token} {ts : List Token} {d : Dispatch} {t : Session}
    (hends : ∀ v ∈ (u :: rest).getLast?, v.isMarker) (hsame : Forall₂ w.Same rest ts)
    (hrest : t.stream.rest = ts ++ w.after) (hhelpers : t.reader.helpers.used = w.helpers)
    (hlast : w.GoesOn ∨ ∃ before v, rest = before ++ [v] ∧ w.closes v ∧
      ∀ v ∈ before, w.closes v = false) (htags : t.scopes.tags = w.outer) (hgenerics : t.generics = []) :
    ({ (ofTokens (u :: rest)).start u rest with trace := [d] } : Session).Follows w t where
  reader := ⟨⟨ts, hsame, hrest⟩, hhelpers.trans (append_nil _).symm⟩
  ends := by
    have hread : (ofTokens (u :: rest)).stream.Reads [u] ((ofTokens (u :: rest)).start u rest).stream :=
      ⟨rfl, rfl⟩
    exact (endsLine_ofTokens hends).read hread
  last := hlast
  tags := htags
  previous := .inl rfl
  generics := hgenerics
  terminated := fun hmem => nomatch hmem
  trace := fun hempty => nomatch hempty
  begun := fun _ => rfl

end Session

/-! ## Token lists -/

namespace History

/-- Two token lists that are translated, the second without its first marker after the first. -/
theorem run_append {lines : Nat} {rest' : List Token} (hlaid : LaidOut lines tokens)
    (hends : ∀ t ∈ tokens.getLast?, t.isMarker)
    (hends' : ∀ t ∈ (Row.start :: rest).getLast?, t.isMarker)
    (hrest : rest'.map unplaced = rest.map unplaced) (hstop : (run unit tokens).stop? = none)
    (hstop' : (run unit (Row.start :: rest)).stop? = none) : (run unit (tokens ++ rest')).stop? = none ∧
      (run unit (tokens ++ rest')).body
        = (run unit tokens).body ++ (run unit (Row.start :: rest)).body ∧
      (run unit (tokens ++ rest')).helpers = (run unit tokens).helpers ++
        (run unit (Row.start :: rest)).helpers.filter
          fun h => decide (h ∉ (run unit tokens).helpers) := by
  obtain ⟨hend, htranslates⟩ := translates_of_stop? hstop
  obtain ⟨hend', htranslates'⟩ := translates_of_stop? hstop'
  obtain ⟨htags, hgenerics⟩ := closed_final hlaid hstop
  -- The chain of the first list goes through with the second one ahead.
  obtain ⟨t, ht, hfollows⟩ := htranslates.mirrored_elsewhere (Session.follows_ofTokens rest' hends)
  have htrest : t.stream.rest = rest' := hfollows.reader.rest_eq hend
  have hthelpers : t.reader.helpers.used = (run unit tokens).helpers := by
    rw [hfollows.reader.helpers]
    exact filter_true _
  obtain ⟨clauses, d, hclauses, htranslates'⟩ := htranslates'.of_begin hend'
  -- That of the second one goes through from there on, once its first clause is left out.
  have hsame : Forall₂ (Placement.elsewhere [] t.reader.helpers.used false).Same rest rest' :=
    (forall₂_of_unplaced hrest).imp fun v v' hline => by
      obtain ⟨line, rfl⟩ := hline
      exact Placement.same_elsewhere line
  have hseam := Session.follows_seam (d := d) hends' hsame (htrest.trans (append_nil _).symm) rfl
    (.inl fun _ => rfl) (by rw [hfollows.tags, htags]; rfl) (by rw [hfollows.generics, hgenerics])
  obtain ⟨t', ht', hfollows'⟩ := htranslates'.mirrored_elsewhere hseam
  obtain ⟨hstopAll, hfinalAll, hclausesAll⟩ := run_of_translates unit (ht.append ht') (hfollows'.reader.rest_eq hend')
  have hbody : ∀ tokens, (run unit tokens).body
      = ((run unit tokens).clauses.map (Clause.render unit)).flatten := fun _ => rfl
  refine ⟨hstopAll, ?_, ?_⟩
  · rw [hbody, hbody, hbody, hclausesAll, hclauses, map_append, flatten_append,
      map_cons, flatten_cons]
    rfl
  rw [helpers, hfinalAll, hfollows'.reader.helpers]
  change t.reader.helpers.used ++ _ = _
  rw [hthelpers]
  rfl

end History

/-! ## Sources -/

def SourceHistory.Accepts (unit source : Text) (h : History) : Prop :=
  (SourceHistory.run unit source).history = .ok h ∧ h.stop? = none

/-- The tokens of a source start with the first marker and end with a marker. -/
theorem scan_ends {source : Text} {scanned : Scanned} (h : (scan unit source).outcome = .ok scanned) :
    scanned.tokens = Row.start :: scanned.tokens.tail ∧ ∀ t ∈ scanned.tokens.getLast?, t.isMarker := by
  obtain ⟨rows, htokens, -⟩ := scan_rows h
  rw [htokens]
  refine ⟨by rcases rows with _ | ⟨row, rows⟩ <;> rfl, ?_⟩
  obtain ⟨last, hlast, hmarker, -⟩ := Row.getLast?_allTokens rows
  intro t ht
  rw [hlast] at ht
  cases ht
  exact hmarker

/-- Translating is a homomorphism: a source after another one that ends its last line has the one
body after the other, and its new helpers after the helpers of the other. -/
theorem accepts_append {unit source₁ source₂ : Text} {h₁ h₂ : History} (hunit : unit ≠ [])
    (hindent : ∀ b ∈ unit, Text.isIndent b = true) (hends : source₁ = [] ∨ source₁.getLast? = some '\n'.toUInt8)
    (haccepts₁ : SourceHistory.Accepts unit source₁ h₁) (haccepts₂ : SourceHistory.Accepts unit source₂ h₂) :
    ∃ h, SourceHistory.Accepts unit (source₁ ++ source₂) h ∧ h.body = h₁.body ++ h₂.body ∧ h.depth = 0 ∧
      h.helpers = h₁.helpers ++ h₂.helpers.filter fun helper => decide (helper ∉ h₁.helpers) := by
  obtain ⟨hrun₁, hstop₁⟩ := haccepts₁
  obtain ⟨hrun₂, hstop₂⟩ := haccepts₂
  obtain ⟨scanned₁, hscan₁, rfl⟩ := SourceHistory.history_eq hrun₁
  obtain ⟨scanned₂, hscan₂, rfl⟩ := SourceHistory.history_eq hrun₂
  have hempty : unit.isEmpty = false := isEmpty_eq_false_iff.mpr hunit
  obtain ⟨hunit₁, hunit₂, rest, hscan, hrest⟩ := scan_append hempty hindent hends hscan₁ hscan₂
  rw [hunit₁] at hstop₁ ⊢
  rw [hunit₂] at hstop₂ ⊢
  obtain ⟨-, hlast₁⟩ := scan_ends hscan₁
  obtain ⟨hstart₂, hlast₂⟩ := scan_ends hscan₂
  rw [hstart₂] at hstop₂ hlast₂ ⊢
  obtain ⟨hstop, hbody, hhelpers⟩ :=
    History.run_append (laidOut_of_scan hscan₁) hlast₁ hlast₂ hrest hstop₁ hstop₂
  refine ⟨History.run unit (scanned₁.tokens ++ rest), ⟨?_, hstop⟩, hbody, ?_, hhelpers⟩
  · rw [SourceHistory.run, hscan]
    rfl
  · rw [History.depth, Scopes.depth, (History.closed_final (laidOut_of_scan hscan) hstop).1]
    rfl

/-- The first source leaves a raw block open, and each of the two prints. -/
theorem accepts_append_raw_block : ∃ h, SourceHistory.Accepts ("  " : String)
        (("print 1\n#\n  raw\n\n" : String) ++ ("print 2 in a\n" : String)) h ∧
      h.depth = 0 ∧ h.helpers = [.print, .contains] := by
  have haccepts : ∀ (source : Text) (helpers : List Helper),
      ((SourceHistory.run ("  " : String) source).history.toOption.map
        fun h => (h.stop?, h.helpers)) = some (none, helpers) →
      ∃ h, SourceHistory.Accepts ("  " : String) source h ∧ h.helpers = helpers := by
    intro source helpers hrun
    rcases hhistory : (SourceHistory.run ("  " : String) source).history with e | h
    · rw [hhistory] at hrun
      cases hrun
    · rw [hhistory] at hrun
      obtain ⟨hstop, hhelpers⟩ := Prod.mk.inj (Option.some.inj hrun)
      exact ⟨h, ⟨hhistory, hstop⟩, hhelpers⟩
  obtain ⟨h₁, haccepts₁, hhelpers₁⟩ :=
    haccepts ("print 1\n#\n  raw\n\n" : String) [.print] (by decide +kernel)
  obtain ⟨h₂, haccepts₂, hhelpers₂⟩ :=
    haccepts ("print 2 in a\n" : String) [.print, .contains] (by decide +kernel)
  obtain ⟨h, haccepts, -, hdepth, hhelpers⟩ :=
    accepts_append (cons_ne_nil _ _) (all_eq_true.mp rfl) (.inr rfl) haccepts₁ haccepts₂
  refine ⟨h, haccepts, hdepth, ?_⟩
  rw [hhelpers, hhelpers₁, hhelpers₂]
  rfl

end Offside
