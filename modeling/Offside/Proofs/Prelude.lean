/-
A prelude is what was asked for first.

A registry has three stores: a table of what is written, a list of names, and a text. One list of
helpers says as much (`Registry.Represents`), and a request keeps them in step, whether it fails or
not. So all depends on where each known name occurs first.
-/
import Mathlib.Data.List.Basic
import Mathlib.Data.List.Induction
import Offside.Prelude

set_option autoImplicit false

namespace Offside

open List Text Helper

/-! ## Lists that grow at their end -/

section

variable {α : Type} [BEq α] [LawfulBEq α]

/-- The list with `a` at its end, unless `a` is in it already. -/
def addNew (as : List α) (a : α) : List α := if a ∈ as then as else as ++ [a]

/-- Members that are added one by one stand in the order in which they came first. -/
theorem foldl_addNew (as : List α) : as.foldl addNew [] = as.eraseDups := by
  induction as using reverseRecOn with
  | nil => rfl
  | append_singleton as a ih =>
    rw [foldl_append, ih, eraseDups_append, foldl_cons, foldl_nil, addNew]
    by_cases ha : a ∈ as <;> simp [ha, removeAll, eraseDups_cons]

/-- A new element is added once. -/
theorem nodup_addNew {as : List α} (h : as.Nodup) (a : α) : (addNew as a).Nodup := by
  rw [addNew]
  split
  · exact h
  · next hnew =>
    refine nodup_append.mpr ⟨h, pairwise_singleton _ _, fun b hb c hc hbc => hnew ?_⟩
    rwa [← mem_singleton.mp hc, ← hbc]

theorem nodup_eraseDups (as : List α) : as.eraseDups.Nodup := by
  rw [← foldl_addNew]
  induction as using reverseRecOn with
  | nil => exact nodup_nil
  | append_singleton as a ih =>
    rw [foldl_append]
    exact nodup_addNew ih a

end

/-- A text behind others, each of which is followed by the separator. -/
theorem Text.join_snoc (sep : Text) (items : List Text) (last : Text) :
    join sep (items ++ [last]) = items.flatMap (· ++ sep) ++ last := by
  induction items with
  | nil => exact intercalate_singleton ..
  | cons item items ih =>
    obtain ⟨head, rest, hrest⟩ := exists_cons_of_ne_nil (append_ne_nil_of_right_ne_nil items
      (cons_ne_nil last []))
    rw [join] at ih ⊢
    rw [cons_append, hrest, intercalate_cons_cons, ← hrest, ih, flatMap_cons]
    simp only [append_assoc]

/-- One more item comes behind the others and a separator. -/
theorem Text.join_join {items : List Text} (sep last : Text) (h : items ≠ []) :
    join sep (items ++ [last]) = join sep items ++ sep ++ last := by
  obtain ⟨items, item, rfl⟩ := (eq_nil_or_concat' items).resolve_left h
  rw [join_snoc, join_snoc, flatMap_append, flatMap_singleton, append_assoc _ item]

/-! ## Names and definitions -/

namespace Helper

def names : List Text := all.map name

theorem ofName?_eq_some_iff {t : Text} {h : Helper} : ofName? t = some h ↔ t = h.name := by
  constructor
  · intro hfind
    have hname : decide (h.name = t) = true := List.find?_some (p := fun h : Helper => decide (h.name = t)) hfind
    exact (of_decide_eq_true hname).symm
  · rintro rfl
    cases h <;> rfl

/-- No two helpers have one name. -/
theorem name_injective : Function.Injective name := by
  intro h h' hname
  rw [← Option.some.injEq, ← ofName?_eq_some_iff.mpr rfl, hname, ofName?_eq_some_iff.mpr rfl]

theorem mem_names_iff {t : Text} : t ∈ names ↔ ∃ h, ofName? t = some h := by
  have hall : ∀ h : Helper, h ∈ all := by
    intro h
    cases h <;> decide
  simp [names, hall, ofName?_eq_some_iff, eq_comm (a := t)]

/-- The last line of a definition ends, so what is written behind it starts a line. -/
theorem definition_getLast? (unit : Text) (h : Helper) : (h.definition unit).getLast? = some '\n'.toUInt8 := by
  obtain ⟨lines, last, hlines⟩ : ∃ lines last, h.lines = lines ++ [last] := by
    rcases eq_nil_or_concat h.lines with hnil | ⟨lines, last, hlast⟩
    · cases h <;> cases hnil
    · exact ⟨lines, last, hlast.trans concat_eq_append⟩
  rw [definition, hlines, flatMap_append, flatMap_singleton, ← append_assoc, ← append_assoc]
  exact getLast?_append_of_ne_nil _ (cons_ne_nil _ _)

theorem definition_ne_nil (unit : Text) (h : Helper) : h.definition unit ≠ [] := by
  intro hnil
  have hlast := definition_getLast? unit h
  rw [hnil] at hlast
  cases hlast

end Helper

/-! ## One list -/

namespace Prelude

variable {p : Prelude} {h : Helper} {name : Text}

/-- The prelude after a request. One that is refused changes nothing. -/
def request (p : Prelude) (name : Text) : Prelude := (p.requireName name).toOption.getD p

def requests (names : List Text) : Prelude := names.foldl request {}

def usedNames (p : Prelude) : List Text := p.used.map Helper.name

theorem require_used (p : Prelude) (h : Helper) : (p.require h).used = addNew p.used h := by
  rw [require, addNew]
  split <;> rfl

theorem request_of_unknown (hname : Helper.ofName? name = none) : p.request name = p := by
  rw [request, requireName, hname]
  rfl

theorem request_name (p : Prelude) (h : Helper) : p.request h.name = p.require h := by
  rw [request, requireName, ofName?_eq_some_iff.mpr rfl]
  rfl

theorem name_mem_usedNames : h.name ∈ p.usedNames ↔ h ∈ p.used :=
  mem_map_of_injective name_injective

/-- One request adds a name that is known and new. -/
theorem usedNames_request (p : Prelude) (name : Text) :
    (p.request name).usedNames = if name ∈ Helper.names then addNew p.usedNames name else p.usedNames := by
  rcases hname : Helper.ofName? name with _ | h
  · rw [request_of_unknown hname, if_neg (by simp [mem_names_iff, hname])]
  · obtain rfl := ofName?_eq_some_iff.mp hname
    rw [if_pos (mem_names_iff.mpr ⟨h, hname⟩), request_name]
    by_cases hused : h ∈ p.used <;> simp [usedNames, require, addNew, hused, name_injective.eq_iff]

/-- Any requests leave the known names, each where it came first. -/
theorem usedNames_requests (names : List Text) :
    (requests names).usedNames = (names.filter (· ∈ Helper.names)).eraseDups := by
  rw [← foldl_addNew, foldl_filter]
  refine (foldl_hom usedNames fun p name => ?_).symm
  simp [usedNames_request]

theorem containsName_iff (p : Prelude) (name : Text) : p.containsName name ↔ name ∈ p.usedNames := by
  rw [containsName]
  rcases hname : Helper.ofName? name with _ | h
  · simp only [Option.map_none, Option.getD_none, Bool.false_eq_true, false_iff]
    intro hmem
    obtain ⟨h, -, rfl⟩ := mem_map.mp hmem
    rw [ofName?_eq_some_iff.mpr rfl] at hname
    cases hname
  · obtain rfl := ofName?_eq_some_iff.mp hname
    rw [Option.map_some, Option.getD_some, contains, decide_eq_true_iff, name_mem_usedNames]

end Prelude

/-! ## Three stores -/

namespace Registry

variable {r : Registry} {p : Prelude} {name : Text} {h : Helper}

/-- The stores are in step: the table marks the helpers of `p`, and the order and the text are those
of `p`. -/
structure Represents (r : Registry) (p : Prelude) : Prop where
  emitted (name : Text) : r.emitted.lookup name = (Helper.ofName? name).map p.contains
  order : r.order = p.usedNames
  buffer : r.buffer = join "\n" (p.used.map (definition r.unit))

theorem lookup_entry (key : Text) (entry : Text × Bool) (entries : List (Text × Bool)) :
    (entry :: entries).lookup key = if key = entry.1 then some entry.2 else entries.lookup key := by
  obtain ⟨name, marked⟩ := entry
  rw [lookup_cons]
  by_cases hkey : key = name
  · simp [hkey]
  · simp [hkey, beq_false_of_ne hkey]

theorem lookup_mark (name key : Text) (entries : List (Text × Bool)) :
    (mark name entries).lookup key = if key = name then some true else entries.lookup key := by
  induction entries with
  | nil => simp [mark, lookup_entry]
  | cons entry entries ih =>
    rw [mark]
    split
    · next hentry =>
      simp only [lookup_entry, hentry]
      split <;> rfl
    · next hentry =>
      rw [lookup_entry, ih, lookup_entry]
      by_cases hkey : key = name
      · simp [hkey, Ne.symm hentry]
      · simp [hkey]

theorem Represents.new (unit : Text) : (new unit).Represents {} where
  emitted name := by
    have hlookup : ∀ hs : List Helper, (hs.map fun h => (h.name, false)).lookup name =
        (hs.find? (·.name = name)).map fun _ => false := by
      intro hs
      induction hs with
      | nil => rfl
      | cons h hs ih =>
        rw [map_cons, lookup_entry, ih, find?_cons]
        by_cases hname : h.name = name
        · simp [hname]
        · simp [hname, Ne.symm hname]
    exact hlookup Helper.all
  order := rfl
  buffer := rfl

theorem Represents.isEmpty_buffer (hr : r.Represents p) : r.buffer.isEmpty = p.used.isEmpty := by
  rw [hr.buffer, Bool.eq_iff_iff, List.isEmpty_iff, List.isEmpty_iff]
  rcases eq_nil_or_concat' p.used with hused | ⟨used, h, hused⟩ <;> rw [hused]
  · exact iff_of_true rfl rfl
  · simp [join_snoc, definition_ne_nil]

/-- The buffer is the prelude. -/
theorem Represents.text (hr : r.Represents p) : r.text = p.text r.unit := by
  rw [Registry.text, Prelude.text, hr.isEmpty_buffer, hr.buffer]

/-! ## One request -/

theorem get_eq (r : Registry) : (MonadState.get : EStateM Text Registry Registry) r = .ok r r := rfl

/-- An unknown name is refused, and nothing is changed. -/
theorem Represents.require_of_unknown (hr : r.Represents p) (hname : Helper.ofName? name = none) :
    require name r = .error ("unknown runtime helper " ++ name.quoted) r := by
  have hlookup := hr.emitted name
  rw [hname, Option.map_none] at hlookup
  simp only [require, bind, EStateM.bind, get_eq, hlookup]
  rfl

/-- A helper that is in use is not written again. -/
theorem Represents.require_of_used (hr : r.Represents p) (hh : h ∈ p.used) : require h.name r = .ok () r := by
  have hlookup := hr.emitted h.name
  rw [ofName?_eq_some_iff.mpr rfl, Option.map_some, Prelude.contains, decide_eq_true hh] at hlookup
  simp only [require, bind, EStateM.bind, get_eq, hlookup]
  rfl

/-- A new helper is marked, listed and written, behind an empty line unless it is the first one. -/
theorem Represents.require_of_new (hr : r.Represents p) (hh : h ∉ p.used) :
    ∃ r', require h.name r = .ok () r' ∧ r'.unit = r.unit ∧ r'.Represents (p.require h) := by
  have hlookup := hr.emitted h.name
  have hname : Helper.ofName? h.name = some h := ofName?_eq_some_iff.mpr rfl
  have hused : (p.require h).used = p.used ++ [h] := by rw [Prelude.require_used, addNew, if_neg hh]
  rw [hname, Option.map_some, Prelude.contains, decide_eq_false hh] at hlookup
  refine ⟨{ r with
    emitted := mark h.name r.emitted
    order := r.order ++ [h.name]
    buffer := (if r.buffer.isEmpty then r.buffer else r.buffer ++ "\n") ++ h.definition r.unit }, ?_, rfl, ?_, ?_, ?_⟩
  · simp only [require, bind, EStateM.bind, get_eq, hlookup, hname]
    cases r.buffer.isEmpty <;> rfl
  · intro key
    rw [lookup_mark]
    split
    · next hkey => simp [hkey, hname, Prelude.contains, hused]
    · next hkey =>
      rw [hr.emitted key]
      rcases hother : Helper.ofName? key with _ | x
      · rfl
      · have hne : x ≠ h := by
          rintro rfl
          exact hkey (ofName?_eq_some_iff.mp hother)
        simp [Prelude.contains, hused, hne]
  · rw [hr.order, Prelude.usedNames, Prelude.usedNames, hused, map_append]
    rfl
  · rw [hr.isEmpty_buffer, hused, map_append, map_singleton, hr.buffer]
    cases hempty : p.used with
    | nil => simp [join]
    | cons x used =>
      rw [join_join _ _ (by simp)]
      rfl

/-- A request for a helper succeeds, whether it is in use or not. -/
theorem Represents.require_name (hr : r.Represents p) (h : Helper) :
    ∃ r', require h.name r = .ok () r' ∧ r'.unit = r.unit ∧ r'.Represents (p.require h) := by
  by_cases hh : h ∈ p.used
  · refine ⟨r, hr.require_of_used hh, rfl, ?_⟩
    rwa [Prelude.require, if_pos hh]
  · exact hr.require_of_new hh

/-- The registry after a request, whether it failed or not. -/
def call (r : Registry) (name : Text) : Registry :=
  match require name r with
  | .ok _ r' => r'
  | .error _ r' => r'

/-- A request keeps the stores in step. -/
theorem Represents.call (hr : r.Represents p) (name : Text) :
    (r.call name).unit = r.unit ∧ (r.call name).Represents (p.request name) := by
  rcases hname : Helper.ofName? name with _ | h
  · rw [Registry.call, hr.require_of_unknown hname, Prelude.request_of_unknown hname]
    exact ⟨rfl, hr⟩
  · obtain rfl := ofName?_eq_some_iff.mp hname
    obtain ⟨r', hrequire, hunit, hr'⟩ := hr.require_name h
    rw [Registry.call, hrequire, Prelude.request_name]
    exact ⟨hunit, hr'⟩

/-- A request fails just if the name is unknown. -/
theorem Represents.require_eq (hr : r.Represents p) (name : Text) :
    require name r = if name ∈ Helper.names then .ok () (r.call name)
      else .error ("unknown runtime helper " ++ name.quoted) r := by
  rcases hname : Helper.ofName? name with _ | h
  · rw [if_neg (by simp [mem_names_iff, hname]), hr.require_of_unknown hname]
  · obtain rfl := ofName?_eq_some_iff.mp hname
    obtain ⟨r', hrequire, -, -⟩ := hr.require_name h
    rw [if_pos (mem_names_iff.mpr ⟨h, hname⟩), Registry.call, hrequire]

/-! ## Any number of requests -/

/-- The registry after requests for these names. -/
def calls (unit : Text) (names : List Text) : Registry := names.foldl call (new unit)

theorem calls_append (unit : Text) (names more : List Text) :
    calls unit (names ++ more) = more.foldl call (calls unit names) :=
  foldl_append

/-- After any requests the stores are in step, and say what one list says that got the same
requests. -/
theorem calls_represents (unit : Text) (names : List Text) :
    (calls unit names).unit = unit ∧ (calls unit names).Represents (.requests names) := by
  induction names using reverseRecOn with
  | nil => exact ⟨rfl, .new unit⟩
  | append_singleton names name ih =>
    obtain ⟨hunit, hr⟩ := ih
    obtain ⟨hunit', hr'⟩ := hr.call name
    rw [calls_append, Prelude.requests, foldl_append]
    exact ⟨hunit'.trans hunit, hr'⟩

/-- Requests for what is in use, or for what nobody knows, do nothing. -/
theorem Represents.foldl_call {more : List Text} (hr : r.Represents p)
    (hmore : ∀ name ∈ more, name ∈ Helper.names → name ∈ p.usedNames) : more.foldl Registry.call r = r := by
  induction more with
  | nil => rfl
  | cons name more ih =>
    obtain ⟨hname, hmore⟩ := forall_mem_cons.mp hmore
    have hsame : r.call name = r := by
      rcases hknown : Helper.ofName? name with _ | h
      · rw [Registry.call, hr.require_of_unknown hknown]
      · obtain rfl := ofName?_eq_some_iff.mp hknown
        have hused := Prelude.name_mem_usedNames.mp (hname (mem_names_iff.mpr ⟨h, hknown⟩))
        rw [Registry.call, hr.require_of_used hused]
    rw [foldl_cons, hsame]
    exact ih hmore

/-- The table knows which names were asked for. -/
theorem Represents.isEmitted_iff (hr : r.Represents p) (name : Text) : r.isEmitted name ↔ name ∈ p.usedNames := by
  rw [isEmitted, hr.emitted]
  exact p.containsName_iff name

/-- After any requests, a further one fails exactly if its name is unknown, and then leaves all as
it is. The order has the known names without repetition, as they occur first. The table marks the
names in the order, and the text has their definitions, with an empty line behind each. Requests for
what is in use can be made anywhere, as often and in any order. -/
theorem calls_firsts (unit : Text) (names : List Text) :
    (∀ name, require name (calls unit names) = if name ∈ Helper.names then .ok () (calls unit (names ++ [name]))
      else .error ("unknown runtime helper " ++ name.quoted) (calls unit names)) ∧
    (calls unit names).order = (names.filter (· ∈ Helper.names)).eraseDups ∧ (calls unit names).order.Nodup ∧
    (∀ name, (calls unit names).isEmitted name = true ↔ name ∈ (calls unit names).order) ∧
    (∃ hs : List Helper, (calls unit names).order = hs.map Helper.name ∧
      (calls unit names).text = if hs = [] then []
        else Text.join "\n" (hs.map (Helper.definition unit)) ++ ("\n" : Text)) ∧
    ∀ more later, (∀ name ∈ more, name ∈ Helper.names → (calls unit names).isEmitted name = true) →
      calls unit (names ++ (more ++ later)) = calls unit (names ++ later) := by
  obtain ⟨hunit, hr⟩ := calls_represents unit names
  have horder := hr.order.trans (Prelude.usedNames_requests names)
  refine ⟨fun name => ?_, horder, ?_, fun name => ?_, ⟨_, hr.order, ?_⟩, fun more later hmore => ?_⟩
  · rw [hr.require_eq, calls_append, foldl_cons, foldl_nil]
  · rw [horder]
    exact nodup_eraseDups _
  · rw [hr.order, hr.isEmitted_iff]
  · rw [hr.text, hunit]
    simp only [Prelude.text, List.isEmpty_iff]
  · simp only [hr.isEmitted_iff] at hmore
    rw [calls_append, foldl_append, hr.foldl_call hmore, calls_append]

/-- An unknown name between two requests for `range`, and requests for both helpers in use behind
them. -/
theorem calls_firsts_range :
    (calls "  " ["range", "sprintf", "contains", "range"]).order = ["range", "contains"] ∧
    require "sprintf" (calls "  " ["range", "sprintf", "contains", "range"]) =
      .error ("unknown runtime helper \"sprintf\"" : String)
        (calls "  " ["range", "sprintf", "contains", "range"]) ∧
    calls "  " ["range", "sprintf", "contains", "range", "contains", "range", "print"] =
      calls "  " ["range", "sprintf", "contains", "range", "print"] := by
  obtain ⟨hcalls, horder, -, hemitted, -, hmore⟩ := calls_firsts "  " ["range", "sprintf", "contains", "range"]
  have horder' : (calls "  " ["range", "sprintf", "contains", "range"]).order = ["range", "contains"] :=
    horder.trans (by decide)
  refine ⟨horder', (hcalls "sprintf").trans (if_neg (by decide)), ?_⟩
  refine hmore ["contains", "range"] ["print"] fun name hname _ => ?_
  rw [hemitted, horder']
  simpa [or_comm] using hname

end Registry

end Offside
