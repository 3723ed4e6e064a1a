/-
The type parameters of a function.

A function becomes a template over the single-letter types of its signature that no class around it
binds. Which classes these are is told by the clauses before it (`Clause.enclosing`).
-/
import Offside.Proofs.Classification

set_option autoImplicit false

open List

namespace Offside

/-! ## The names in a type -/

mutual

def TypeExpr.names : TypeExpr → List Text
  | .plain name _ => [name]
  | .applied name argument _ => name :: argument.names
  | .appliedAll name arguments _ => name :: TemplateArgument.namesOf arguments

def TemplateArgument.names : TemplateArgument → List Text
  | .type type => type.names
  | .word _ => []

def TemplateArgument.namesOf : List TemplateArgument → List Text
  | [] => []
  | a :: as => a.names ++ TemplateArgument.namesOf as

end

mutual

def TypeExpr.dimensionWords : TypeExpr → List Text
  | .plain _ dimensions => Expr.groupsWords dimensions
  | .applied _ argument dimensions => argument.dimensionWords ++ Expr.groupsWords dimensions
  | .appliedAll _ arguments dimensions =>
    TemplateArgument.dimensionWordsOf arguments ++ Expr.groupsWords dimensions

def TemplateArgument.dimensionWords : TemplateArgument → List Text
  | .type type => type.dimensionWords
  | .word _ => []

def TemplateArgument.dimensionWordsOf : List TemplateArgument → List Text
  | [] => []
  | a :: as => a.dimensionWords ++ TemplateArgument.dimensionWordsOf as

end

theorem letters_of_name (name : Text) :
    (if Category.ofText name = .templateType then [name] else []) = [name].filter Text.isTemplateType := by
  by_cases h : name.isTemplateType
  · rw [if_pos (Category.ofText_eq_templateType_iff.mpr h), filter_cons_of_pos h, filter_nil]
  · rw [if_neg (mt Category.ofText_eq_templateType_iff.mp h), filter_cons_of_neg h, filter_nil]

mutual

/-- The letters of a type are those of its names that are single capitals. -/
theorem TypeExpr.letters_eq : ∀ type : TypeExpr, type.letters = type.names.filter Text.isTemplateType
  | .plain name _ => by rw [TypeExpr.letters, TypeExpr.names, letters_of_name]
  | .applied name argument _ => by
    rw [TypeExpr.letters, TypeExpr.names, letters_of_name, argument.letters_eq, ← filter_append,
      singleton_append]
  | .appliedAll name arguments _ => by
    rw [TypeExpr.letters, TypeExpr.names, letters_of_name, TemplateArgument.lettersOf_eq arguments,
      ← filter_append, singleton_append]

theorem TemplateArgument.letters_eq : ∀ a : TemplateArgument, a.letters = a.names.filter Text.isTemplateType
  | .type type => type.letters_eq
  | .word _ => rfl

theorem TemplateArgument.lettersOf_eq : ∀ as : List TemplateArgument,
    TemplateArgument.lettersOf as = (TemplateArgument.namesOf as).filter Text.isTemplateType
  | [] => rfl
  | a :: as => by
    rw [TemplateArgument.lettersOf, TemplateArgument.namesOf, filter_append, a.letters_eq,
      TemplateArgument.lettersOf_eq as]

end

/-! ## Words that are no names -/

section

variable {p : Text → Bool}

/-- Commas are no names. -/
theorem filter_commaWords (hcomma : p "," = false) (items : List (List Text)) :
    (commaWords items).filter p = items.flatten.filter p := by
  induction items with
  | nil => rfl
  | cons item items ih =>
    by_cases hitems : items = []
    · rw [hitems, commaWords, flatten_cons, flatten_nil, append_nil]
    · rw [commaWords_cons item hitems, flatten_cons, filter_append, filter_append,
        filter_cons_of_neg (Bool.eq_false_iff.mp hcomma), ih]

theorem filter_eq_nil {ws : List Text} (h : ∀ w ∈ ws, p w = false) : ws.filter p = [] :=
  filter_eq_nil_iff.mpr fun w hw => Bool.eq_false_iff.mp (h w hw)

theorem not_of_not_isTemplateType (hp : ∀ w, p w → w.isTemplateType) {w : Text}
    (hw : w.isTemplateType = false) : ¬ p w :=
  fun h => Bool.eq_false_iff.mp hw (hp w h)

mutual

/-- Among letters that do not stand in brackets, the words of a type are its names. -/
theorem TypeExpr.filter_words (hp : ∀ w, p w → w.isTemplateType) : ∀ type : TypeExpr, type.WellFormed →
    (∀ w ∈ type.dimensionWords, p w = false) → type.words.filter p = type.names.filter p
  | .plain name dimensions, _, hdims => by
    rw [TypeExpr.dimensionWords] at hdims
    rw [TypeExpr.words, TypeExpr.names, filter_cons, filter_cons, filter_eq_nil hdims, filter_nil]
  | .applied name argument dimensions, hwf, hdims => by
    rw [TypeExpr.dimensionWords, forall_mem_append] at hdims
    have hargument := argument.filter_words hp hwf.2.1 hdims.1
    have hsign : ¬ p "!" := not_of_not_isTemplateType hp rfl
    rw [TypeExpr.words, TypeExpr.names, filter_cons, filter_cons_of_neg hsign, filter_append,
      filter_eq_nil hdims.2, append_nil, hargument, filter_cons]
  | .appliedAll name arguments dimensions, hwf, hdims => by
    rw [TypeExpr.dimensionWords, forall_mem_append] at hdims
    have harguments := TemplateArgument.filter_wordLists hp arguments hwf.2.2.1 hdims.1
    have hsign : ¬ p "!" := not_of_not_isTemplateType hp rfl
    have hopen : ¬ p "(" := not_of_not_isTemplateType hp rfl
    have hclose : ¬ p ")" := not_of_not_isTemplateType hp rfl
    have hcomma : p "," = false := Bool.eq_false_iff.mpr (not_of_not_isTemplateType hp rfl)
    rw [TypeExpr.words, TypeExpr.names, filter_cons, filter_cons_of_neg hsign, filter_append,
      filter_eq_nil hdims.2, append_nil, parenWords, filter_cons_of_neg hopen, filter_append,
      filter_cons_of_neg hclose, filter_nil, append_nil, filter_commaWords hcomma, harguments,
      filter_cons]

theorem TemplateArgument.filter_words (hp : ∀ w, p w → w.isTemplateType) :
    ∀ a : TemplateArgument, a.WellFormed → (∀ w ∈ a.dimensionWords, p w = false) → a.words.filter p = a.names.filter p
  | .type type, hwf, hdims => type.filter_words hp hwf hdims
  | .word text, hwf, _ => by
    have htext : text.isTemplateType = false := by
      refine Bool.eq_false_iff.mpr fun h => ?_
      rw [TemplateArgument.WellFormed, Category.ofText_eq_templateType_iff.mpr h] at hwf
      cases hwf
    rw [TemplateArgument.words, TemplateArgument.names, filter_cons_of_neg (not_of_not_isTemplateType hp htext)]

theorem TemplateArgument.filter_wordLists (hp : ∀ w, p w → w.isTemplateType) :
    ∀ as : List TemplateArgument, TemplateArgument.AllWellFormed as →
    (∀ w ∈ TemplateArgument.dimensionWordsOf as, p w = false) →
    (TemplateArgument.wordLists as).flatten.filter p = (TemplateArgument.namesOf as).filter p
  | [], _, _ => rfl
  | a :: as, hwf, hdims => by
    rw [TemplateArgument.dimensionWordsOf, forall_mem_append] at hdims
    rw [TemplateArgument.wordLists, TemplateArgument.namesOf, flatten_cons, filter_append,
      filter_append, a.filter_words hp hwf.1 hdims.1, TemplateArgument.filter_wordLists hp as hwf.2 hdims.2]

end

end

/-! ## The list of a function -/

theorem firsts_filter (p : Text → Bool) (ws : List Text) : firsts (ws.filter p) = (firsts ws).filter p := by
  induction ws with
  | nil => rfl
  | cons w ws ih =>
    by_cases hw : p w
    · rw [filter_cons_of_pos hw, firsts, firsts, filter_cons_of_pos hw, ih, filter_filter,
        filter_filter]
      simp only [Bool.and_comm]
    · rw [filter_cons_of_neg hw, firsts, filter_cons_of_neg hw, ih, filter_filter]
      refine filter_congr fun v _ => ?_
      by_cases hv : v = w
      · rw [hv, Bool.eq_false_iff.mpr hw, Bool.false_and]
      · rw [decide_eq_true hv, Bool.and_true]

/-- Keeping the first of each is erasing duplicates. -/
theorem firsts_eq_eraseDups : ∀ ws : List Text, firsts ws = ws.eraseDups
  | [] => rfl
  | w :: ws => by
    have hne : (fun v : Text => decide (v ≠ w)) = fun v => !v == w := by
      funext v
      rw [Bool.beq_eq_decide_eq, decide_not]
    rw [firsts, eraseDups_cons, ← firsts_filter, hne, firsts_eq_eraseDups (ws.filter fun v => !v == w)]
termination_by ws => ws.length
decreasing_by exact Nat.lt_succ_of_le (length_filter_le _ _)

variable {c : Clause} {f : FunctionHeader}

namespace FunctionHeader

def types (f : FunctionHeader) : List TypeExpr := f.parameters.map (·.type) ++ f.result.toList

theorem WellFormed.types (h : f.WellFormed) : ∀ type ∈ f.types, type.WellFormed := by
  intro type htype
  rcases mem_append.mp htype with htype | htype
  · obtain ⟨g, hg, rfl⟩ := mem_map.mp htype
    exact (h.parameters g hg).type
  · exact h.result type (Option.mem_toList.mp htype)

/-- The letters that no class binds, the first of each. -/
theorem typeParameters_eq_eraseDups (f : FunctionHeader) :
    f.typeParameters = ((f.types.flatMap TypeExpr.letters).filter fun l => decide (l ∉ f.bound)).eraseDups := by
  have hletters : f.types.flatMap TypeExpr.letters =
      f.parameters.flatMap (·.type.letters) ++ (f.result.map TypeExpr.letters).getD [] := by
    rw [FunctionHeader.types, flatMap_append, flatMap_map]
    cases f.result <;> simp
  rw [typeParameters, hletters, firsts_eq_eraseDups]

/-- The letters can be added one by one: each that no class binds and that is not there yet. -/
theorem typeParameters_eq_foldl (f : FunctionHeader) : f.typeParameters =
    (f.types.flatMap TypeExpr.letters).foldl (fun ls l => if l ∈ f.bound then ls else addNew ls l) [] := by
  rw [typeParameters_eq_eraseDups, ← foldl_addNew, foldl_filter]
  simp

/-- The same read off the names of the signature. -/
theorem typeParameters_eq (f : FunctionHeader) : f.typeParameters = ((f.types.flatMap TypeExpr.names).filter fun w =>
      w.isTemplateType && decide (w ∉ f.bound)).eraseDups := by
  have hnames : f.types.flatMap TypeExpr.letters = (f.types.flatMap TypeExpr.names).filter Text.isTemplateType := by
    rw [filter_flatMap]
    exact flatMap_congr fun type _ => type.letters_eq
  rw [typeParameters_eq_eraseDups, hnames, filter_filter]
  simp only [Bool.and_comm]

end FunctionHeader

/-! ## The classes around a clause -/

/-- The headers of the blocks that are open behind a clause, the innermost first. A case body has
none. -/
def Clause.enclosing (headers : List (Option Header)) : Clause → List (Option Header)
  | .block header _ _ => some header :: headers
  | .labels _ => none :: headers
  | .dedent _ => headers.tail
  | .simple _ _ (.closing _) => headers.tail
  | .attributed _ c => c.enclosing headers
  | _ => headers

def Header.bindsAll (headers : List (Option Header)) : List (List Text) :=
  headers.flatMap fun header? => (header?.map Header.binds).getD []

/-- Is the word a single-letter type that no class binds which is open behind the clauses? -/
def Clause.leavesFree (cs : List Clause) (w : Text) : Bool :=
  w.isTemplateType && !(Header.bindsAll (cs.foldl Clause.enclosing [])).flatten.contains w

/-- The scopes are those of the headers, and bind what the headers bind. -/
structure Enclosure.Holds (e : Enclosure) (headers : List (Option Header)) : Prop where
  tags : e.scopes.tags = headers.map fun header? => (header?.map Header.tag).getD .caseBody
  generics : e.generics = Header.bindsAll headers

namespace Enclosure.Holds

variable {e : Enclosure} {headers : List (Option Header)}

theorem closed (h : e.Holds headers) : e.closed.Holds headers.tail := by
  obtain ⟨htags, hgenerics⟩ := h
  cases headers with
  | nil => exact ⟨by rw [Enclosure.closed, htags]; rfl, by rw [Enclosure.closed, htags]; exact hgenerics⟩
  | cons header? headers =>
    rw [Enclosure.closed, htags]
    refine ⟨rfl, ?_⟩
    rw [hgenerics, Header.bindsAll, flatMap_cons]
    cases header? with
    | none => rfl
    | some header =>
      cases header with
      | userType header =>
        have hbinds : (Header.tag (.userType header)).bindsTypes := by
          rw [Header.tag]
          split <;> rfl
        exact if_pos hbinds
      | _ => rfl

/-- The effect of a clause keeps the classes around in step with the stacks. -/
theorem effect (c : Clause) (h : e.Holds headers) : (c.effect e).Holds (c.enclosing headers) := by
  induction c generalizing e with
  | dedent _ => exact h.closed
  | simple _ _ ending =>
    have hforget : e.forget.Holds headers := ⟨h.tags, h.generics⟩
    cases ending with
    | closing _ => exact hforget.closed
    | _ => exact hforget
  | block header _ _ => exact ⟨congrArg (header.tag :: ·) h.tags, congrArg (header.binds ++ ·) h.generics⟩
  | labels _ => exact ⟨congrArg (Tag.caseBody :: ·) h.tags, h.generics⟩
  | attributed _ c ih => exact ih ⟨h.tags, h.generics⟩
  | _ => exact ⟨h.tags, h.generics⟩

end Enclosure.Holds

/-- What is bound in a function are the parameters of the classes around it. -/
theorem Session.Translates.bound_eq {before after : List Clause} {headers : List (Option Header)} {s s' : Session}
    (h : s.Translates (before ++ c :: after) s') (hs : s.enclosure.Holds headers)
    (hf : c.header? = some (.function f)) :
    f.bound = (Header.bindsAll (before.foldl Clause.enclosing headers)).flatten := by
  induction before generalizing s headers with
  | nil =>
    obtain _ | ⟨hrest, hclause, h⟩ := h
    have hturns := Translate.clauseIn_turns _ _ _ _ _ hclause
    have hheeds : f.bound = s.generics.flatten := (hturns.heeds _ hf).2
    rw [hheeds]
    exact congrArg List.flatten hs.generics
  | cons b before ih =>
    obtain _ | ⟨hrest, hclause, h⟩ := h
    have hturns := Translate.clauseIn_turns _ _ _ _ _ hclause
    refine ih h ?_
    rw [hturns.effect]
    exact hs.effect b

variable {tags tags' : List Tag} {ts : List Token}

theorem Clause.Written.header {header : Header} (h : c.Written tags ts tags') (hheader : c.header? = some header) :
    header.WellFormed := by
  induction h with
  | block _ _ hwf => exact Option.some.inj hheader ▸ hwf
  | attributed _ _ _ _ ih => exact ih hheader
  | _ => cases hheader

/-- The headers of clauses that are written are well-formed. -/
theorem Clause.AllWritten.header {cs : List Clause} {header : Header} (h : AllWritten tags cs ts tags')
    (hc : c ∈ cs) (hheader : c.header? = some header) : header.WellFormed := by
  induction h with
  | nil => cases hc
  | cons hfirst _ _ ih =>
    rcases mem_cons.mp hc with rfl | hc
    · exact hfirst.header hheader
    · exact ih hc

/-! ## The template of a function -/

def Clause.function? (c : Clause) : Option FunctionHeader :=
  match c.header? with
  | some (.function f) => some f
  | _ => none

theorem Clause.header?_of_function? (h : c.function? = some f) : c.header? = some (.function f) := by
  rw [Clause.function?] at h
  split at h
  · next hheader => rw [hheader, Option.some.inj h]
  · cases h

theorem Clause.render_of_header? {header : Header} (unit : Text) (h : c.header? = some header) :
    ∃ front back, c.render unit = front ++ header.code ++ back := by
  induction c with
  | block header' comment level =>
    obtain rfl := Option.some.inj h
    refine ⟨[], " \x7b" ++ Fragment.render unit (LineComment.trailing comment ++ [.lineBreak level]), ?_⟩
    exact append_assoc _ _ _
  | attributed word c ih =>
    obtain ⟨front, back, hrender⟩ := ih h
    refine ⟨word ++ " " ++ front, back, ?_⟩
    rw [append_assoc, append_assoc, ← append_assoc front, ← hrender]
    rfl
  | _ => cases h

/-- A function whose block is opened in a source, in a class or not, is a template over the
single-letter types of its signature that no class around it binds, in the order of their first
appearance, without the ones in array dimensions. It is no template if there are none. If no
dimension holds such a letter then the list leaves out no word of the signature's types. -/
theorem SourceHistory.function_templates {unit source : Text} {h : History} {before after : List Clause} {c : Clause}
    {f : FunctionHeader} (hrun : (SourceHistory.run unit source).history = .ok h)
    (hclauses : h.clauses = before ++ c :: after) (hf : c.function? = some f) :
    f.typeParameters = ((f.types.flatMap TypeExpr.names).filter (Clause.leavesFree before)).eraseDups ∧
    (∃ front back, c.render h.unit = front ++ (f.name ++ parameterList f.typeParameters ++
      "(" ++ ParameterGroup.listCode f.parameters ++ ")") ++ back) ∧
    (parameterList f.typeParameters = [] ↔ ∀ w ∈ f.types.flatMap TypeExpr.names, Clause.leavesFree before w = false) ∧
    ((∀ w ∈ f.types.flatMap TypeExpr.dimensionWords, Clause.leavesFree before w = false) →
      f.typeParameters = ((f.types.flatMap TypeExpr.words).filter (Clause.leavesFree before)).eraseDups) := by
  obtain ⟨scanned, hscan, rfl⟩ := SourceHistory.history_eq hrun
  have hheader := Clause.header?_of_function? hf
  obtain ⟨s', htranslates⟩ := Session.translates_history scanned.unit (scanned.tokens.length + 1)
    (Session.nested_ofTokens scanned.tokens)
  rw [← Session.history_ofTokens, hclauses] at htranslates
  have hstart : (Session.ofTokens scanned.tokens).enclosure.Holds [] := ⟨rfl, rfl⟩
  have hbound := htranslates.bound_eq hstart hheader
  have hchained : (Session.ofTokens scanned.tokens).reader.Chained :=
    (chain_of_scan hscan).imp fun t u hadjacent => hadjacent.raw
  obtain ⟨⟨ts, -, hwritten⟩, -⟩ := htranslates.written hchained
  have hwf : f.WellFormed := hwritten.header (mem_append_right _ mem_cons_self) hheader
  have hnames : f.typeParameters =
      ((f.types.flatMap TypeExpr.names).filter (Clause.leavesFree before)).eraseDups := by
    rw [f.typeParameters_eq, hbound]
    refine congrArg List.eraseDups (filter_congr fun w _ => ?_)
    rw [Clause.leavesFree, contains_eq_mem, decide_not]
  refine ⟨hnames, ?_, ?_, fun hdims => ?_⟩
  · obtain ⟨front, back, hrender⟩ := Clause.render_of_header? scanned.unit hheader
    refine ⟨front ++ (f.qualifiers ++ f.resultCode ++ " "), back, hrender.trans ?_⟩
    rw [Header.code, FunctionHeader.code]
    simp only [append_assoc]
  · have hempty : parameterList f.typeParameters = [] ↔ f.typeParameters = [] := by
      cases f.typeParameters with
      | nil => exact ⟨fun _ => rfl, fun _ => rfl⟩
      | cons w ws => exact iff_of_false (fun h => by cases h) (fun h => by cases h)
    rw [hempty, hnames, eq_nil_iff_forall_not_mem]
    simp only [mem_eraseDups, mem_filter, not_and, Bool.not_eq_true]
  · rw [hnames, filter_flatMap, filter_flatMap]
    refine congrArg List.eraseDups (flatMap_congr fun type htype => ?_)
    refine (type.filter_words (fun w hw => (Bool.and_eq_true _ _ ▸ hw).1) (hwf.types type htype) fun w hw => ?_).symm
    exact hdims w (mem_flatMap.mpr ⟨type, htype, hw⟩)

/-- A method of a class with a type parameter, with types of its own. -/
theorem SourceHistory.function_templates_method : ∃ h before c after f,
      (SourceHistory.run [] "class Box(T):\n    method put(T x, Map!(U, T) m, U[] us) -> V:\n        pass\n").history =
        .ok h ∧ h.clauses = before ++ c :: after ∧ c.function? = some f ∧
      ((f.types.flatMap TypeExpr.names).filter (Clause.leavesFree before)).eraseDups =
        [("U" : Text), ("V" : Text)] := by
  have hmap : ((SourceHistory.run []
      "class Box(T):\n    method put(T x, Map!(U, T) m, U[] us) -> V:\n        pass\n").history.toOption.map fun h =>
        (h.stop?, h.clauses[2]?.bind fun c => c.function?.map FunctionHeader.typeParameters)) =
      some (none, some [("U" : Text), ("V" : Text)]) := by decide +kernel
  obtain ⟨h, ⟨hrun, -⟩, hmap⟩ := SourceHistory.accepts_of_map hmap
  obtain ⟨c, hc, hmap⟩ := Option.bind_eq_some_iff.mp hmap
  obtain ⟨f, hf, hparameters⟩ := Option.map_eq_some_iff.mp hmap
  obtain ⟨hlt, rfl⟩ := List.getElem?_eq_some_iff.mp hc
  have hclauses : h.clauses = h.clauses.take 2 ++ h.clauses[2] :: h.clauses.drop 3 := by
    rw [← drop_eq_getElem_cons hlt, take_append_drop]
  exact ⟨h, _, _, _, f, hrun, hclauses, hf,
    (SourceHistory.function_templates hrun hclauses hf).1.symm.trans hparameters⟩

end Offside
