/-
Which rows a row stands below.

The parent of a row is the nearest one before it that is one level less deep. `Row.ancestors`
follows the parents up, and `Row.before?` is the nearest line of code that is not deeper.
-/
import Offside.Proofs.Layout.Concatenation
import Offside.Proofs.Layout.RawBlock

set_option autoImplicit false

open List

namespace Offside

namespace Row

/-! ## Ancestors -/

/-- The rows above one at `level`, the parent first, when `rows` come before it, the nearest first. -/
def ancestors : List Row → Nat → List Row
  | [], _ => []
  | row :: rows, level =>
    if row.isVerbatim = false ∧ row.level + 1 = level then row :: ancestors rows row.level
    else ancestors rows level

def isComment (row : Row) : Bool := row.tokens.head?.any Token.isCommentSign

def before? (rows : List Row) (level : Nat) : Option Row :=
  rows.find? fun row => !row.isVerbatim && decide (row.level ≤ level) && !row.isComment

def Reaches (rows : List Row) (level : Nat) : Prop :=
  match rows with
  | [] => level = 0
  | row :: _ => level ≤ if row.isVerbatim then row.level else row.level + 1

/-- Rows, the latest first, in which every row may come where it does. -/
inductive Steps : List Row → Prop
  | nil : Steps []
  | cons {row : Row} {rows : List Row} (h : Reaches rows row.level) (hrows : Steps rows) :
    Steps (row :: rows)

variable {row : Row} {rows : List Row} {level m k : Nat}

theorem ancestors_verbatim (h : row.isVerbatim) (rows : List Row) (level : Nat) :
    ancestors (row :: rows) level = ancestors rows level := by
  rw [ancestors, if_neg (by simp [h])]

theorem ancestors_of_ne (h : row.level + 1 ≠ level) (rows : List Row) :
    ancestors (row :: rows) level = ancestors rows level := by
  rw [ancestors, if_neg (by simp [h])]

theorem ancestors_parent (hv : row.isVerbatim = false) (h : row.level + 1 = level) (rows : List Row) :
    ancestors (row :: rows) level = row :: ancestors rows row.level := by
  rw [ancestors, if_pos ⟨hv, h⟩]

theorem Reaches.mono (h : Reaches rows m) (hk : k ≤ m) : Reaches rows k := by
  cases rows with
  | nil =>
    have hm : m = 0 := h
    exact Nat.le_zero.mp (hm ▸ hk)
  | cons row rows => exact Nat.le_trans hk h

theorem Steps.reaches (hsteps : Steps (row :: rows)) (h : Reaches (row :: rows) k)
    (hne : row.isVerbatim ∨ row.level + 1 ≠ k) : Reaches rows k := by
  cases hsteps with
  | cons hrow _ =>
    refine hrow.mono ?_
    have hk : k ≤ if row.isVerbatim then row.level else row.level + 1 := h
    cases hv : row.isVerbatim with
    | true => simpa [hv] using hk
    | false =>
      have hne := hne.resolve_left (by simp [hv])
      rw [hv, if_neg Bool.false_ne_true] at hk
      omega

theorem ancestors_drop (hsteps : Steps rows) (h : Reaches rows m) (hk : k ≤ m) :
    ancestors rows k = (ancestors rows m).drop (m - k) := by
  induction hsteps generalizing m with
  | nil => simp [ancestors]
  | @cons row rows hrow hrows ih =>
    have hsteps : Steps (row :: rows) := .cons hrow hrows
    cases hv : row.isVerbatim with
    | true =>
      rw [ancestors_verbatim hv, ancestors_verbatim hv]
      exact ih (hsteps.reaches h (.inl hv)) hk
    | false =>
      by_cases hm : row.level + 1 = m
      · rcases Nat.eq_or_lt_of_le hk with rfl | hlt
        · simp
        · -- The row itself is dropped, and the rest are its own ancestors.
          have hdrop : m - k = row.level - k + 1 := by omega
          rw [ancestors_of_ne (by omega), ancestors_parent hv hm, hdrop, drop_succ_cons]
          exact ih hrow (by omega)
      · have hreach : m ≤ row.level + 1 := by simpa [Reaches, hv] using h
        rw [ancestors_of_ne hm, ancestors_of_ne (by omega)]
        exact ih (hsteps.reaches h (.inr hm)) hk

/-- The parent is the nearest row that is not deeper. -/
theorem head?_ancestors (hsteps : Steps rows) (h : Reaches rows (k + 1)) :
    ∃ row, (ancestors rows (k + 1)).head? = some row ∧ row.level = k ∧
      rows.find? (fun row => !row.isVerbatim && decide (row.level ≤ k)) = some row := by
  induction hsteps with
  | nil => cases h
  | @cons row rows hrow hrows ih =>
    have hsteps : Steps (row :: rows) := .cons hrow hrows
    cases hv : row.isVerbatim with
    | true =>
      rw [ancestors_verbatim hv, find?_cons_of_neg (by simp [hv])]
      exact ih (hsteps.reaches h (.inl hv))
    | false =>
      by_cases hk : row.level + 1 = k + 1
      · rw [ancestors_parent hv hk, find?_cons_of_pos (by simp [hv]; omega)]
        exact ⟨row, rfl, by omega, rfl⟩
      · have hreach : k + 1 ≤ row.level + 1 := by simpa [Reaches, hv] using h
        rw [ancestors_of_ne hk, find?_cons_of_neg (by simp [hv]; omega)]
        exact ih (hsteps.reaches h (.inr hk))

/-- Verbatim rows are nobody's ancestors. -/
theorem ancestors_filter (rows : List Row) (level : Nat) :
    ancestors (rows.filter fun row => !row.isVerbatim) level = ancestors rows level := by
  induction rows generalizing level with
  | nil => rfl
  | cons row rows ih =>
    cases hv : row.isVerbatim with
    | true => rw [filter_cons_of_neg (by simp [hv]), ancestors_verbatim hv, ih]
    | false => rw [filter_cons_of_pos (by simp [hv]), ancestors, ancestors, ih, ih]

theorem before?_filter (rows : List Row) (level : Nat) :
    before? (rows.filter fun row => !row.isVerbatim) level = before? rows level := by
  rw [before?, before?, find?_filter]
  congr 1
  funext row
  cases row.isVerbatim <;> simp

theorem Below.reaches {a b : Row} (h : Below a b) (rows : List Row) : Reaches (a :: rows) b.level := by
  obtain ⟨-, hlevel⟩ := h
  unfold Reaches
  cases ha : a.isVerbatim <;> cases hb : b.isVerbatim <;> simp only [ha, hb] at hlevel ⊢ <;> grind

theorem Laid.steps {before after : List Row} (h : Laid (before ++ row :: after)) :
    Steps before.reverse ∧ Reaches before.reverse row.level := by
  induction before using List.reverseRecOn generalizing row after with
  | nil => exact ⟨.nil, (h.first row rfl).2.1⟩
  | append_singleton before b ih =>
    rw [append_assoc, singleton_append] at h
    obtain ⟨hsteps, hreaches⟩ := ih h
    have hbelow : Below b row :=
      isChain_iff_forall_rel_of_append_cons_cons.mp h.chain rfl
    rw [reverse_append]
    exact ⟨.cons hreaches hsteps, hbelow.reaches _⟩

end Row

/-! ## Lines of words

The rows of words can be told without reading line by line, once the unit is known. -/

namespace Reading

/-- Does the line go on with the raw block whose opener is at the level, if one is open? -/
def continuesRaw (unit : Text) (opener : Option Nat) (line : Text) : Bool :=
  opener.any fun level => (rawText? unit level line).isSome

def lineLevel (unit line : Text) : Nat := (indentation line).length / unit.length

/-- The rows of the lines that are neither blank nor in a raw block. The first line has the given
number, and a raw block may be open, whose opener is at the given level. -/
def wordRows (unit : Text) : Option Nat → Nat → List Text → List Row
  | _, _, [] => []
  | opener, number, line :: lines =>
    if (content line).isEmpty || continuesRaw unit opener line then
      wordRows unit opener (number + 1) lines
    else
      .words number (lineLevel unit line) ((Word.cut (content line)).toOption.getD []) ::
        wordRows unit (if opensRaw (content line) then some (lineLevel unit line) else none)
          (number + 1) lines

variable {number : Nat} {line unit : Text} {lines : List Text} {s s' : Reading}

theorem lineLevel_of_levelIn? {level : Nat} (h : levelIn? unit (indentation line) = some level) :
    lineLevel unit line = level := by
  rw [levelIn?] at h
  split at h
  · exact Option.some.inj h
  · cases h

/-- The rows that are read and not verbatim are the rows of words. -/
theorem readLines_wordRows (hread : readLines number lines s = .ok () s')
    (hunit : s'.unit.isEmpty = false → unit = s'.unit) (hne : unit ≠ [])
    (hindent : s.unit.isEmpty → unit.Leading) :
    (s'.rows.reverse.filter fun row => !row.isVerbatim) = (s.rows.reverse.filter fun row => !row.isVerbatim) ++
        wordRows unit (s.raw.map RawBlock.base) number lines := by
  induction lines generalizing number s with
  | nil =>
    cases hread
    simp [wordRows]
  | cons line lines ih =>
    obtain ⟨s₁, hreads, hread⟩ := readLines_cons hread
    -- Once the unit is known it is that of the source.
    have hknown : s₁.unit.isEmpty = false → unit = s₁.unit := by
      intro hs₁
      have hfinal := readLines_unit hs₁ hread
      rw [hunit (by rw [hfinal]; exact hs₁), hfinal]
    have hunitAt : (s.unitAt line).isEmpty → s.unit.isEmpty ∧ indentation line = [] := by
      rw [unitAt]
      split
      · next hs => exact fun h => ⟨hs, List.isEmpty_iff.mp h⟩
      · next hs => exact fun h => absurd h hs
    cases hreads with
    | blank hblank hraw =>
      rw [wordRows, hblank, Bool.true_or, if_pos rfl]
      exact ih hread hindent
    | @rawBlank block hblank hraw =>
      rw [wordRows, hblank, Bool.true_or, if_pos rfl, ih hread hindent, hraw]
      rfl
    | @rawLine block text hcontent hraw htext =>
      have hempty : (s.unitAt line).isEmpty = false := by
        rw [Bool.eq_false_iff]
        intro h
        rw [rawText?, h] at htext
        cases htext
      have hcontinues : continuesRaw unit (s.raw.map RawBlock.base) line := by
        rw [hknown hempty, hraw]
        simp [continuesRaw, htext]
      have hblanks : (blankRows number block).filter (fun row => !row.isVerbatim) = [] := by
        refine filter_eq_nil_iff.mpr fun row hrow => ?_
        simp [isVerbatim_of_mem_blankRows hrow]
      rw [wordRows, hcontinues, Bool.or_true, if_pos rfl, ih hread fun h => ?_, hraw]
      · have hverbatim : ∀ n l t, (Row.verbatim n l t).isVerbatim := fun _ _ _ => rfl
        simp only [reverse_cons, reverse_append, reverse_reverse, filter_append, hblanks,
          cons_append, append_nil]
        simp [hverbatim]
      · exact hindent (hunitAt h).1
    | @words level words detected hcontent hraw hlevel hfits hcut =>
      have hcontinues : continuesRaw unit (s.raw.map RawBlock.base) line = false := by
        cases hs : s.raw with
        | none => rfl
        | some block =>
          have hno : rawText? unit block.base line = none := by
            cases hempty : (s.unitAt line).isEmpty with
            | false => rw [hknown hempty]; exact hraw block hs
            | true =>
              obtain ⟨hs, hline⟩ := hunitAt hempty
              exact rawText?_eq_none _ (isEmpty_eq_false_iff.mpr hne) (hindent hs) hline
          simp [continuesRaw, hno]
      have hlineLevel : lineLevel unit line = level := by
        rw [IsLevel] at hlevel
        by_cases hempty : (indentation line).isEmpty
        · rw [if_pos hempty] at hlevel
          rw [lineLevel, List.isEmpty_iff.mp hempty, hlevel, length_nil, Nat.zero_div]
        · rw [if_neg hempty] at hlevel
          rw [hknown (unitAt_isEmpty (Bool.eq_false_iff.mpr hempty))]
          exact lineLevel_of_levelIn? hlevel
      rw [wordRows, hcontent, hcontinues, Bool.or_false, if_neg Bool.false_ne_true, hlineLevel, hcut,
        ih hread fun h => hindent (hunitAt h).1]
      have hopener : (if opensRaw (content line) then some { base := level : RawBlock } else none).map
          RawBlock.base = if opensRaw (content line) then some level else none := by
        split <;> rfl
      rw [hopener]
      simp [Row.isVerbatim, Except.toOption]

end Reading

def Text.wordRows (source unit : Text) : List Row := Reading.wordRows unit none 1 source.lines

end Offside
