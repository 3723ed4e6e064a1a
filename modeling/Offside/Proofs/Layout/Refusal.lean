/-
Lines that cannot be read.

What is wrong with a line is found from the unit, the level of the row above and the line itself. So
two readings with these in common say the same of it, each with its own number
(`Reading.Relocated`).
-/
import Offside.Proofs.Layout.Scan

set_option autoImplicit false

namespace Offside

namespace Reading

variable {α β : Type} {m n number : Nat} {line : Text} {s s' t : Reading} {e : ScanError}

/-! ## Two readings -/

/-- Two outcomes of reading: both give the same result, in states that `R` relates, or both are
errors, which `E` relates. -/
inductive Matched (R : Reading → Reading → Prop) (E : ScanError → ScanError → Prop) :
    EStateM.Result ScanError Reading α → EStateM.Result ScanError Reading α → Prop
  | ok {a : α} {s t : Reading} (h : R s t) : Matched R E (.ok a s) (.ok a t)
  | error {e e' : ScanError} {s t : Reading} (h : E e e') : Matched R E (.error e s) (.error e' t)

namespace Matched

variable {R R' : Reading → Reading → Prop} {E : ScanError → ScanError → Prop}

/-- Two steps match if their parts do. -/
theorem bind {x y : Step α} {f g : α → Step β} (h : Matched R E (x s) (y t))
    (hf : ∀ a s' t', R s' t' → Matched R' E (f a s') (g a t')) : Matched R' E ((x >>= f) s) ((y >>= g) t) := by
  generalize hx : x s = r at h
  generalize hy : y t = r' at h
  cases h with
  | ok h =>
    rw [bind_of_ok f hx, bind_of_ok g hy]
    exact hf _ _ _ h
  | error h =>
    rw [bind_of_error f hx, bind_of_error g hy]
    exact .error h

end Matched

def SameAbove (s t : Reading) : Prop := t.rows.head?.map Row.level = s.rows.head?.map Row.level

/-- The two outcomes are the same, but an error of the second is on line `n`. -/
abbrev Relocated (n : Nat) : EStateM.Result ScanError Reading α → EStateM.Result ScanError Reading α → Prop :=
  Matched SameAbove fun e e' => e' = { e with line := n }

theorem levelWith_relocated (h : SameAbove s t) (unit leading : Text) :
    Relocated n (levelWith m unit leading s) (levelWith n unit leading t) := by
  rw [levelWith, levelWith]
  rcases levelIn? unit leading with _ | level
  · exact .error rfl
  · exact .ok h

theorem levelOf_relocated (h : SameAbove s t)
    (hunit : (indentation line).isEmpty ∨ t.unitAt line = s.unitAt line) :
    Relocated n (levelOf m (indentation line) s) (levelOf n (indentation line) t) := by
  by_cases hindent : (indentation line).isEmpty
  · rw [levelOf, levelOf, if_pos hindent, if_pos hindent]
    exact .ok h
  · rw [levelOf_eq _ _ hindent, levelOf_eq _ _ hindent, hunit.resolve_left hindent]
    refine levelWith_relocated ?_ _ _
    exact h

theorem checkLevel_relocated (h : SameAbove s t) (level : Nat) :
    Relocated n (checkLevel m level s) (checkLevel n level t) := by
  unfold checkLevel
  rw [bind_of_ok _ (get_eq s), bind_of_ok _ (get_eq t)]
  have hlevel : t.rows.head?.map Row.level = s.rows.head?.map Row.level := h
  rcases hs : s.rows.head? with _ | row <;> rcases ht : t.rows.head? with _ | row' <;>
    rw [hs, ht] at hlevel
  · dsimp only
    split
    · exact .error rfl
    · exact .ok h
  · cases hlevel
  · cases hlevel
  · obtain hlevel : row'.level = row.level := Option.some.inj hlevel
    dsimp only
    rw [hlevel]
    split
    · exact .error rfl
    · exact .ok h

theorem wordsOf_relocated (h : SameAbove s t) (margin : Nat) (text : Text) :
    Relocated n (wordsOf m margin text s) (wordsOf n margin text t) := by
  unfold wordsOf
  rcases Word.cut text with rest | words
  · exact .error rfl
  · exact .ok h

/-- Two readings that have the unit and the level above in common do the same with a line of words.
The unit does not matter if the line is not indented. -/
theorem readWords_relocated (h : SameAbove s t)
    (hunit : (indentation line).isEmpty ∨ t.unitAt line = s.unitAt line) :
    Relocated n (readWords m line s) (readWords n line t) :=
  (levelOf_relocated h hunit).bind fun level _ _ h => (checkLevel_relocated h level).bind fun _ _ _ h =>
    (wordsOf_relocated h _ _).bind fun _ _ _ _ => .ok rfl

/-! ## Where an error is -/

theorem readWords_error (h : readWords number line s = .error e s') : e.line = number := by
  have hself : Relocated number (readWords number line s) (readWords number line s) :=
    readWords_relocated rfl (.inr rfl)
  rw [h] at hself
  cases hself with
  | error heq => exact congrArg ScanError.line heq

/-- An error is on the line that was read, which is not blank. -/
theorem readLine_error (h : readLine number line s = .error e s') :
    e.line = number ∧ (content line).isEmpty = false := by
  by_cases hblank : (content line).isEmpty
  · -- Blank lines are passed over, or counted in a raw block.
    rcases hraw : s.raw with _ | block
    · rw [readLine_of_none hraw, if_pos hblank] at h
      cases h
    · rw [readLine_of_some hraw, if_pos hblank] at h
      cases h
  refine ⟨?_, by rwa [Bool.not_eq_true] at hblank⟩
  rcases hraw : s.raw with _ | block
  · rw [readLine_of_none hraw, if_neg hblank] at h
    exact readWords_error h
  · rw [readLine_of_some hraw, if_neg hblank] at h
    rcases htext : rawText? (s.unitAt line) block.base line with _ | text
    · rw [htext] at h
      exact readWords_error h
    · rw [htext] at h
      cases h

/-- The line with the error is one of the source. -/
theorem readLines_error {lines rest : List Text} (before : List Text) (hlines : lines = before ++ rest)
    (hnumber : number = before.length + 1) (h : readLines number rest s = .error e s') :
    ∃ (m : Nat) (l : Text), 1 ≤ m ∧ lines[m - 1]? = some l ∧ e.line = m ∧ (content l).isEmpty = false := by
  induction rest generalizing before number s with
  | nil => cases h
  | cons line rest ih =>
    rw [readLines] at h
    rcases bind_error h with hline | ⟨_, s₁, -, hrest⟩
    · obtain ⟨he, hcontent⟩ := readLine_error hline
      refine ⟨number, line, by omega, ?_, he, hcontent⟩
      rw [hlines, hnumber, Nat.add_sub_cancel, List.getElem?_append_right (Nat.le_refl _), Nat.sub_self]
      rfl
    · refine ih (before ++ [line]) ?_ ?_ hrest
      · rw [hlines, List.append_assoc]
        rfl
      · rw [hnumber, List.length_append]
        rfl

end Reading

end Offside
