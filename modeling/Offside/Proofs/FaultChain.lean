/-
Which report of a chain is asked.

A fault wraps its cause, which may wrap another one. What a fault is taken for is decided by one
report only, the first of the chain.
-/
import Mathlib.Logic.Relation
import Offside.Fault

set_option autoImplicit false

open List

namespace Offside

namespace Fault

variable {f g : Fault} {r : Report}

/-- A fault wraps itself, its cause, and what its cause wraps. -/
def Wraps : Fault → Fault → Prop := Relation.ReflTransGen fun f g => f.cause? = some g

/-- The report that a fault is itself, whatever it wraps. -/
def own? : Fault → Option Report
  | report r => some r
  | reportOf r _ => some r
  | _ => none

/-- The faults of a chain, the outermost first. -/
def chain : Fault → List Fault
  | wrapped text cause => wrapped text cause :: cause.chain
  | reportOf r cause => reportOf r cause :: cause.chain
  | f => [f]

def reports (f : Fault) : List Report := f.chain.filterMap own?

theorem chain_eq (f : Fault) : f.chain = f :: (f.cause?.map chain).getD [] := by
  cases f <;> rfl

theorem mem_chain_iff : g ∈ f.chain ↔ f.Wraps g := by
  constructor
  · intro hmem
    -- Only faults with a cause have more than themselves in their chain.
    induction f with
    | wrapped text cause ih | reportOf r cause ih =>
      rcases mem_cons.mp hmem with rfl | hmem
      · exact .refl
      · exact .head rfl (ih hmem)
    | plain | scan | parse | report =>
      obtain rfl := mem_singleton.mp hmem
      exact .refl
  · intro hwraps
    induction hwraps using Relation.ReflTransGen.head_induction_on with
    | refl => simp [chain_eq g]
    | head hcause _ ih =>
      rw [chain_eq, hcause]
      exact mem_cons_of_mem _ ih

theorem mem_reports_iff : r ∈ f.reports ↔ ∃ g, f.Wraps g ∧ g.own? = some r := by
  simp only [reports, mem_filterMap, mem_chain_iff]

/-- The report that is asked is the first of the chain. -/
theorem report?_eq_head? (f : Fault) : f.report? = f.reports.head? := by
  induction f with
  | wrapped text cause ih => exact ih
  | plain | scan | parse | report | reportOf => rfl

theorem isType_iff_head? (f : Fault) (t : FaultType) :
    f.isType t ↔ f.reports.head?.map Report.type = some t := by
  rw [isType, report?_eq_head?]
  cases f.reports.head? <;> simp

/-- A chain is taken for what its first report is. That some report of it is of a type says the same
exactly if this is the type of the first report, or of no report behind it. -/
theorem isType_iff_first (f : Fault) (t : FaultType) :
    (f.isType t = true ↔ f.reports.head?.map Report.type = some t) ∧
    ((f.isType t = true ↔ ∃ g r, f.Wraps g ∧ g.own? = some r ∧ r.type = t) ↔
      f.reports.head?.map Report.type = some t ∨ ∀ r ∈ f.reports.tail, r.type ≠ t) := by
  have hany : (∃ g r, f.Wraps g ∧ g.own? = some r ∧ r.type = t) ↔ ∃ r ∈ f.reports, r.type = t := by
    simp only [mem_reports_iff]
    grind
  refine ⟨isType_iff_head? f t, ?_⟩
  rw [hany, isType_iff_head?]
  rcases f.reports with _ | ⟨first, hidden⟩
  · simp
  · by_cases hfirst : first.type = t
    · simp [hfirst]
    · simp [hfirst]

/-- A rejected source that is reported as one that cannot be read. -/
example : (reportOf { type := .inputRead, message := [] } (report { type := .scan, message := [] })).isType .scan =
    false := by decide

end Fault

end Offside
