/-
A source in a function.

What is accepted at the top level is accepted in a function too, with one exception: there `this(`
starts a call, so a class that is declared in a function has no constructor, whatever stands between
the two.
-/
import Offside.Proofs.Deepening

set_option autoImplicit false

namespace Offside

/-- In the function `f`, one unit deeper, a source that is accepted and not blank is accepted too,
unless it declares a constructor. Its body has one more unit before each line that is not empty. -/
theorem accepts_inFunction {unit source : Text} {h : History} (hunit : unit ≠ [])
    (hindent : ∀ b ∈ unit, Text.isIndent b = true)
    (hfilled : ∃ line ∈ source.lines, (Reading.content line).isEmpty = false)
    (haccepts : SourceHistory.Accepts unit source h) (hplain : ∀ c ∈ h.clauses, c.constructs = false) :
    ∃ h', SourceHistory.Accepts unit (("function f():\n" : String) ++ Text.indented unit source) h' ∧
      h'.body = ("pure auto f() \x7b\n" : String) ++
        h.body.mapLines (fun line => if line.isEmpty then line else unit ++ line) ++ ("\x7d\n" : String) := by
  obtain ⟨h', haccepts', -, hbody⟩ :=
    accepts_below Opening.opens_function hunit hindent hfilled haccepts fun _ => hplain
  exact ⟨h', haccepts', hbody⟩

/-- A class with a method, and an interface. -/
theorem accepts_inFunction_method : ∃ h, SourceHistory.Accepts ("  " : String)
        ("function f():\n  class Box:\n    method get():\n      pass\n\n  interface Lid:\n    int n\n" : String) h ∧
      h.body =
        ("pure auto f() \x7b\n  class Box \x7b\n    auto get() \x7b\n      \x7b\x7d\n    \x7d\n  \x7d\n" : String) ++
        ("  interface Lid \x7b\n    int n;\n  \x7d\n\x7d\n" : String) := by
  generalize hsource : (("class Box:\n  method get():\n    pass\n\ninterface Lid:\n  int n\n" : String) : Text) = source
  have hrun : ((SourceHistory.run ("  " : String) source).history.toOption.map fun h =>
      (h.stop?, h.body, h.clauses.all fun c => !c.constructs)) =
      some (none, (("class Box \x7b\n  auto get() \x7b\n    \x7b\x7d\n  \x7d\n\x7d\n" : String) ++
        ("interface Lid \x7b\n  int n;\n\x7d\n" : String) : Text), true) := by
    rw [← hsource]
    decide +kernel
  have hline : ∃ line ∈ source.lines, (Reading.content line).isEmpty = false := by
    rw [← hsource]
    decide +kernel
  obtain ⟨h, haccepts, hh⟩ :=
    SourceHistory.accepts_of_map (f := fun h => (h.body, h.clauses.all fun c => !c.constructs)) hrun
  obtain ⟨hbody, hplain⟩ := Prod.mk.inj hh
  have hunit : (("  " : String) : Text) ≠ [] := List.cons_ne_nil _ _
  obtain ⟨h', haccepts', hbody'⟩ := accepts_inFunction hunit (List.all_eq_true.mp rfl) hline haccepts
    fun c hc => by simpa using List.all_eq_true.mp hplain c hc
  have hnested : (("function f():\n" : String) ++ Text.indented ("  " : String) source : Text) =
      ("function f():\n  class Box:\n    method get():\n      pass\n\n  interface Lid:\n    int n\n" : String) := by
    rw [← hsource]
    decide +kernel
  rw [hnested] at haccepts'
  refine ⟨h', haccepts', ?_⟩
  rw [hbody', hbody]
  decide +kernel

end Offside
