/-
Reading what was written.

A path leads somewhere only through directories. A write changes none of them, because only a place
that is no directory is written (`walk_put`).
-/
import Offside.Disk
import Offside.Proofs.Layout.Concatenation

set_option autoImplicit false

namespace Offside

open List Text Offside.Path

/-! ## Paths with the same directories -/

namespace Path

variable {path : Text}

/-- A path is its directories, with a slash behind each of them, and its last element. -/
def element (path : Text) : Text := (path.reverse.takeWhile fun b => !isSlash b).reverse

def directories (path : Text) : Text := (path.reverse.dropWhile fun b => !isSlash b).reverse

/-- A path is its directories and its last element. -/
theorem directories_append_element (path : Text) : directories path ++ element path = path := by
  rw [directories, element, ← reverse_append, takeWhile_append_dropWhile, reverse_reverse]

theorem slash_not_mem_element (path : Text) : slash ∉ element path := by
  intro h
  rw [element, mem_reverse] at h
  have hno := all_eq_true.mp all_takeWhile slash h
  exact absurd hno (by decide)

theorem directories_cases (path : Text) : directories path = [] ∨ ∃ outer, directories path = outer ++ [slash] := by
  rw [directories]
  cases hrest : path.reverse.dropWhile fun b => !isSlash b with
  | nil => exact .inl rfl
  | cons b rest =>
    have hb := head?_dropWhile_not (fun b => !isSlash b) path.reverse
    rw [hrest, head?_cons] at hb
    have hslash : b = slash := by simpa [isSlash] using hb
    exact .inr ⟨rest.reverse, by rw [reverse_cons, hslash]⟩

theorem enter_inj {a b : Text} {elements : List Text} (h : enter a elements = enter b elements)
    (ha : enter a elements ≠ elements) : a = b := by
  have hb := ha
  rw [h] at hb
  unfold enter at h ha hb
  by_cases ha₁ : (a.isEmpty || decide (a = ("." : Text)))
  · exact absurd (if_pos ha₁) ha
  by_cases hb₁ : (b.isEmpty || decide (b = ("." : Text)))
  · exact absurd (if_pos hb₁) hb
  rw [if_neg ha₁, if_neg hb₁] at h
  by_cases ha₂ : a = ("..": Text) <;> by_cases hb₂ : b = (".." : Text)
  · rw [ha₂, hb₂]
  · rw [if_pos ha₂, if_neg hb₂] at h
    have hlength := congrArg List.length h
    rw [length_tail, length_cons] at hlength
    omega
  · rw [if_neg ha₂, if_pos hb₂] at h
    have hlength := congrArg List.length h
    rw [length_tail, length_cons] at hlength
    omega
  · rw [if_neg ha₂, if_neg hb₂] at h
    exact (cons.inj h).1

end Path

namespace Disk

variable {d : Disk} {place other start directory elements : List Text} {path : Text} {content : Text} {e : Entry}

/-! ## Places -/

theorem get?_put (d : Disk) (place : List Text) (e : Entry) (h : place ≠ []) :
    (d.put place e).get? place = some e := by
  rw [get?, if_neg (by simpa using h), put, lookup_cons_self]

theorem get?_put_of_ne (h : other ≠ place) : (d.put place e).get? other = d.get? other := by
  have hfilter : ∀ entries : List (List Text × Entry),
      (entries.filter fun entry => entry.1 ≠ place).lookup other = entries.lookup other := by
    intro entries
    induction entries with
    | nil => rfl
    | cons entry entries ih =>
      by_cases hentry : entry.1 = place
      · have hno : (other == entry.1) = false := by simpa [hentry] using h
        rw [filter_cons_of_neg (by simpa using hentry), ih, lookup_cons, hno]
      · rw [filter_cons_of_pos (by simpa using hentry), lookup_cons, lookup_cons, ih]
  have hno : (other == place) = false := by simpa using h
  rw [get?, get?, put, lookup_cons, hno, hfilter]

/-- To walk two paths is to walk one and then the other. -/
theorem walk_append (d : Disk) (place elements rest : List Text) :
    d.walk place (elements ++ rest) = d.walk place elements >>= fun p => d.walk p rest := by
  induction elements generalizing place with
  | nil => rfl
  | cons element elements ih =>
    rw [cons_append, walk, walk]
    rcases d.get? place with _ | ⟨_⟩ | _
    · rfl
    · rfl
    · exact ih _

theorem walk_concat {element : Text} (h : d.walk start (elements ++ [element]) = .ok place) :
    ∃ parent, d.walk start elements = .ok parent ∧ d.get? parent = some .directory ∧
      place = enter element parent := by
  rw [walk_append] at h
  rcases hwalk : d.walk start elements with e | parent
  · rw [hwalk] at h
    cases h
  · rw [hwalk] at h
    have hlast : d.walk parent [element] = .ok place := h
    rw [walk] at hlast
    rcases hget : d.get? parent with _ | ⟨_⟩ | _
    · rw [hget] at hlast
      cases hlast
    · rw [hget] at hlast
      cases hlast
    · rw [hget] at hlast
      cases hlast
      exact ⟨parent, rfl, hget, rfl⟩

/-- A write to a place that is no directory changes no walk. -/
theorem walk_put (h : d.walk start elements = .ok place) (hother : d.get? other ≠ some .directory) :
    (d.put other e).walk start elements = .ok place := by
  induction elements generalizing start with
  | nil => exact h
  | cons element elements ih =>
    rw [walk] at h ⊢
    rcases hget : d.get? start with _ | ⟨_⟩ | _
    · rw [hget] at h
      cases h
    · rw [hget] at h
      cases h
    · have hne : start ≠ other := by
        rintro rfl
        exact hother hget
      rw [hget] at h
      rw [get?_put_of_ne hne, hget]
      exact ih h

theorem locate_put (h : d.locate directory path = .ok place) (hother : d.get? other ≠ some .directory) :
    (d.put other e).locate directory path = .ok place := by
  rw [locate] at h ⊢
  split at h
  · cases h
  · next hne =>
    rw [if_neg hne]
    exact walk_put h hother

theorem locate_append {directories : Text} (directory : List Text)
    (hdir : directories = [] ∨ ∃ outer, directories = outer ++ [Path.slash]) :
    ∃ start elements, ∀ element : Text, Path.slash ∉ element → directories ++ element ≠ [] →
      ∀ d : Disk, d.locate directory (directories ++ element) = d.walk start (elements ++ [element]) := by
  rcases hdir with rfl | ⟨outer, rfl⟩
  · refine ⟨directory, [], fun element hslash hne d => ?_⟩
    have habsolute : isAbsolute element = false := by
      rw [isAbsolute, decide_eq_false_iff_not]
      exact fun hhead => hslash (mem_of_mem_head? hhead)
    rw [nil_append] at hne ⊢
    rw [locate, if_neg (by simpa using hne), habsolute, pieces_of_line hslash]
    rfl
  · refine ⟨if isAbsolute (outer ++ [Path.slash]) then [] else directory,
      pieces Path.slash outer, fun element hslash hne d => ?_⟩
    have habsolute : isAbsolute (outer ++ [Path.slash] ++ element) =
        isAbsolute (outer ++ [Path.slash]) := by
      cases outer <;> rfl
    rw [locate, if_neg (by simp), habsolute, append_assoc, singleton_append,
      pieces_append, pieces_of_line hslash]

/-! ## Files -/

/-- Two files that are reached through the same directories are apart if their names are. -/
theorem locate_ne {directories a b : Text} (hdir : directories = [] ∨ ∃ outer, directories = outer ++ [Path.slash])
    (hslasha : Path.slash ∉ a) (hslashb : Path.slash ∉ b) (hne : a ≠ b)
    (hlocate : d.locate directory (directories ++ a) = .ok place)
    (hlocate' : d.locate directory (directories ++ b) = .ok other)
    (hplace : d.get? place ≠ some .directory) : place ≠ other := by
  have hnonempty : ∀ {path : Text} {p : List Text}, d.locate directory path = .ok p → path ≠ [] := by
    rintro _ p h rfl
    cases h
  obtain ⟨start, elements, heq⟩ := locate_append directory hdir
  rw [heq a hslasha (hnonempty hlocate)] at hlocate
  rw [heq b hslashb (hnonempty hlocate')] at hlocate'
  obtain ⟨parent, hwalk, hparent, rfl⟩ := walk_concat hlocate
  obtain ⟨parent', hwalk', -, rfl⟩ := walk_concat hlocate'
  rw [hwalk] at hwalk'
  cases hwalk'
  intro henter
  refine hne (enter_inj henter fun hstays => hplace ?_)
  rw [hstays]
  exact hparent

/-- Just the files that can be located are read. -/
theorem read_eq_ok_iff : d.read directory path = .ok content ↔
    ∃ place, d.locate directory path = .ok place ∧ d.get? place = some (.file content) := by
  rw [read, find]
  rcases hlocate : d.locate directory path with e | place
  · simp [bind, Except.bind]
  · rcases hget : d.get? place with _ | ⟨c⟩ | _ <;> simp [bind, Except.bind, hget]

theorem get?_of_ends_in_slash (h : d.locate directory path = .ok place)
    (hslash : path.getLast? = some Path.slash) : d.get? place = some .directory := by
  obtain ⟨outer, rfl⟩ := getLast?_eq_some_iff.mp hslash
  obtain ⟨start, elements, heq⟩ := locate_append directory (.inr ⟨outer, rfl⟩)
  have hnil := heq [] (not_mem_nil) (by simp) d
  rw [append_nil] at hnil
  rw [hnil] at h
  obtain ⟨parent, -, hparent, rfl⟩ := walk_concat h
  exact hparent

theorem trimEnd_isSlash (h : path.getLast? ≠ some Path.slash) : trimEnd Path.isSlash path = path := by
  rw [trimEnd]
  rcases hpath : path.reverse with _ | ⟨b, rest⟩
  · simpa using hpath.symm
  · have hb : ¬ Path.isSlash b := by
      rw [← head?_reverse, hpath, head?_cons] at h
      simpa [Path.isSlash] using h
    rw [dropWhile_cons_of_neg hb, ← hpath, reverse_reverse]

/-- Just the places that are no directories are written. -/
theorem write_eq_ok_iff {d' : Disk} : d.write directory path content = .ok d' ↔
    ∃ place, d.locate directory path = .ok place ∧ d.get? place ≠ some .directory ∧
      d' = d.put place (.file content) := by
  by_cases hslash : path.getLast? = some Path.slash
  · -- Neither side holds of a path that means a directory.
    constructor
    · intro h
      rw [write, target] at h
      cases hlocate : d.locate directory (trimEnd Path.isSlash path) <;>
        simp [bind, Except.bind, hlocate, hslash] at h
    · rintro ⟨place, hlocate, hplace, -⟩
      exact absurd (get?_of_ends_in_slash hlocate hslash) hplace
  · rw [write, target, trimEnd_isSlash hslash]
    rcases d.locate directory path with e | place
    · simp [bind, Except.bind]
    · by_cases hplace : d.get? place = some .directory
      · simp [bind, Except.bind, hplace]
      · simp [bind, Except.bind, hslash, hplace, @eq_comm Disk]

/-- What was written is read. -/
theorem read_put_self (hlocate : d.locate directory path = .ok place) (hplace : d.get? place ≠ some .directory) :
    (d.put place (.file content)).read directory path = .ok content := by
  refine read_eq_ok_iff.mpr ⟨place, locate_put hlocate hplace, get?_put d place _ ?_⟩
  rintro rfl
  exact hplace rfl

/-- A write leaves every other file as it was. -/
theorem read_put_of_ne (h : d.read directory path = .ok content)
    (hother : d.get? other ≠ some .directory) (hne : d.locate directory path ≠ .ok other) :
    (d.put other e).read directory path = .ok content := by
  obtain ⟨place, hlocate, hget⟩ := read_eq_ok_iff.mp h
  refine read_eq_ok_iff.mpr ⟨place, locate_put hlocate hother, ?_⟩
  rw [get?_put_of_ne, hget]
  rintro rfl
  exact hne hlocate

end Disk

end Offside
