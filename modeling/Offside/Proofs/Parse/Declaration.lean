/-
Parsers of declarations and of the parts of statements read what their result spells.

Most of them stand behind a first word that decided for them, which `YieldsAfter` puts in front.
Parameters are built out of order, but the list of their items grows at its end.
-/
import Offside.Proofs.Parse.Soundness
import Offside.Proofs.Spelling.Clause

set_option autoImplicit false

namespace Offside

open List Token Category Reader Offside.Expr

variable {name : Text} {t : Token} {r : Reader}
variable {r' : Reader} {c : Category} {words : List Text} {groups : List ParameterGroup}

namespace Reader

/-- `r'` is `r` after the line that `first` begins went on with these words, and the helpers that
the line asks for were recorded. -/
structure Proceeds (r : Reader) (first : Text) (words : List Text) (r' : Reader) : Prop where
  code : r.stream.Spells Token.IsCode words r'.stream
  clear : r'.Clear
  helpers : r.helpers.Records (fun x => x.AskedBy (first :: words)) r'.helpers

theorem Spells.proceeds {first : Text} (h : r.Spells words r') (hfirst : first.Leads) (hr' : r'.Clear) :
    r.Proceeds first words r' :=
  ⟨h.code, hr', h.helpers.congr fun _ => (Helper.askedBy_leads hfirst).symm⟩

def Names (r : Reader) (words : List Text) (r' : Reader) : Prop := r.Takes words r' ∧ (".." : Text) ∉ words

theorem Names.trans {r₁ r₂ : Reader} {ws us : List Text} (h : r.Names ws r₁) (h' : r₁.Names us r₂) :
    r.Names (ws ++ us) r₂ := by
  refine ⟨h.1.trans h'.1, ?_⟩
  rw [mem_append, not_or]
  exact ⟨h.2, h'.2⟩

theorem Names.proceeds {k : LibraryWord} (h : r.Names words r') (hr' : r'.Clear) : r.Proceeds k.text words r' :=
  ⟨h.1.code, hr', .of_none (fun _ => Helper.not_askedBy_library h.2) h.1.helpers⟩

end Reader

namespace Parse

open Reader (Clear Behind Parsed ParsedFrom Spells Takes Names Proceeds)

variable {α : Type} {r : Reader}

def YieldsAfter (first : Text) (p : Parse α) (w : α → List Text) (P : α → Prop) : Prop :=
  ∀ r : Reader, r.Clear → Ensures p r fun a r' => ∃ ws, w a = first :: ws ∧ r.Proceeds first ws r' ∧ P a

/-! ## Expressions and types with their budgets -/

/-- An expression is what was read. -/
theorem expression_yields : Yields expression Expr.words WellFormed :=
  Yields.bounded fun n => (exprSound n).expression.yields

theorem expressionList_yields : Yields expressionList (fun es => commaWords (wordLists es))
    fun es => es ≠ [] ∧ AllWellFormed es := by
  refine Yields.bounded fun n r hr => (commaList_yields expression_yields n r hr).mono ?_
  simp only [allWellFormed_iff, wordLists_eq]
  exact fun _ _ h => h

theorem arguments_yields :
    Yields arguments (fun es => parenWords (commaWords (wordLists es))) AllWellFormed :=
  Yields.bounded fun n => (exprSound n).arguments.yields

theorem accessors_ensures (hr : r.Clear) : Ensures accessors r fun as r' =>
      r.Parsed (Accessor.chainWords as) (Accessor.AllWellFormed as ∧ Accessor.Separate as)
        startsAccessor r' :=
  bounded_ensures fun n => (exprSound n).accessors n r hr

theorem expressionFrom_ensures (hr : r.Behind t) : Ensures (expressionFrom t) r fun e r' =>
      r.ParsedFrom t e.words e.WellFormed e.extendedBy r' :=
  bounded_ensures fun n => (exprSound n).expressionFrom t r hr

theorem typeFrom_ensures (hr : r.Behind t) : Ensures (typeFrom t) r fun type r' =>
      r.ParsedFrom t type.words type.WellFormed type.takes r' :=
  bounded_ensures fun n => (exprSound n).typeFrom t r hr

variable {Q : α → Reader → Prop}

/-- A type is read from its first word on. -/
theorem nextType_ensures {f : TypeExpr → Parse α} (wanted : Text) (hr : r.Clear)
    (hf : ∀ type r', r.Spells type.words r' → type.WellFormed → r'.Clear →
      Ensures (f type) r' Q) : Ensures (next wanted >>= fun t => typeFrom t >>= f) r Q := by
  refine .seq (next_ensures wanted hr) ?_
  rintro t r₁ ⟨hread, hbehind⟩
  refine .seq (typeFrom_ensures hbehind) ?_
  intro type r₂ h₂
  have h := h₂.after hread
  exact hf type r₂ h.spells h.ok h.clear

/-! ## Names -/

theorem identifier_yields :
    Yields identifier (fun name => [name]) fun name => ofText name = .identifier :=
  nextOf_yields (by rfl) (by decide) _

theorem word_ensures (wanted : Text) (hr : r.Clear) :
    Ensures (word wanted) r fun name r' => r.Names [name] r' ∧ Text.isWord name = true ∧ r'.Clear := by
  refine .seq (next_ensures wanted hr) ?_
  rintro t r₁ ⟨hread, hbehind⟩
  refine .guard fun hword => ?_
  rw [Bool.not_eq_true, Bool.not_eq_false'] at hword
  have hcode := isCode_of_isWord hword
  rw [Token.isWord, Bool.and_eq_true] at hword
  refine .pure ⟨⟨Takes.one hread hcode, fun hrange => ?_⟩, hword.2, hbehind.clear hcode⟩
  rw [← mem_singleton.mp hrange] at hword
  cases hword.2

/-- A module path is words with dots between. -/
theorem modulePath_ensures (hr : r.Clear) : Ensures modulePath r fun path r' => r.Names path.words r' ∧
      (path ≠ [] ∧ ∀ segment ∈ path, Text.isWord segment) ∧ r'.Clear := by
  refine bounded_ensures fun n => ?_
  induction n generalizing r with
  | zero => exact .throw
  | succ n ih =>
    rw [modulePathIn]
    refine .seq (word_ensures _ hr) ?_
    rintro segment r₁ ⟨h₁, hsegment, hr₁⟩
    refine accept_takes (by rfl) hr₁ (fun r₂ hr₂ h₂ => ?_) fun _ => ?_
    · refine .seq (ih hr₂) ?_
      rintro path r₃ ⟨h₃, ⟨hne, hpath⟩, hr₃⟩
      refine .pure ⟨?_, ⟨cons_ne_nil _ _, forall_mem_cons.mpr ⟨hsegment, hpath⟩⟩, hr₃⟩
      obtain ⟨next, rest, rfl⟩ := exists_cons_of_ne_nil hne
      exact h₁.trans (Names.trans ⟨h₂, by decide⟩ h₃)
    · exact .pure ⟨h₁, ⟨cons_ne_nil _ _, forall_mem_singleton.mpr hsegment⟩, hr₁⟩

theorem moduleImport_yields : YieldsAfter "import" moduleImport Simple.words Simple.WellFormed := by
  intro r hr
  refine .seq (bounded_ensures fun n => commaList_ensures Names.trans (fun h => ⟨h, by decide⟩)
    (fun _ => modulePath_ensures) n hr) ?_
  rintro paths r₁ ⟨h₁, ⟨-, hpaths⟩, hr₁⟩
  exact .pure ⟨_, rfl, h₁.proceeds (k := .importWord) hr₁, fun path hpath => (hpaths path hpath).2⟩

theorem symbolImport_yields : YieldsAfter "from" symbolImport Simple.words Simple.WellFormed := by
  intro r hr
  refine .seq (modulePath_ensures hr) ?_
  rintro path r₁ ⟨h₁, ⟨-, hpath⟩, hr₁⟩
  refine .seq (expect_takes (by rfl) hr₁) ?_
  rintro _ r₂ ⟨h₂, hr₂⟩
  refine .seq (bounded_ensures fun n => commaList_ensures (w := fun name => [name]) Names.trans
    (fun h => ⟨h, by decide⟩) (fun _ => word_ensures _) n hr₂) ?_
  rintro names r₃ ⟨h₃, ⟨-, hnames⟩, hr₃⟩
  have hall := h₁.trans (Names.trans ⟨h₂, by decide⟩ h₃)
  exact .pure ⟨_, rfl, hall.proceeds (k := .fromWord) hr₃, hpath, hnames⟩

/-! ## Variables -/

theorem atCategory_ensures {p q : Parse α}
    (hp : ∀ t rest, r.stream.rest = t :: rest → t.category = c → Ensures p r Q) (hq : Ensures q r Q) :
    Ensures (do if ← atCategory c then p else q) r Q := by
  refine .seq (.of_safe (atCategory_spec c r)) ?_
  rintro (_ | _) r' ⟨rfl, h⟩
  · exact hq
  · obtain ⟨t, rest, hrest, hcategory⟩ := h rfl
    exact hp t rest hrest hcategory

theorem popOf_ensures {rest : List Token} (hmarker : c.isLineMarker = false)
    (hquiet : c ≠ .punctuation ∧ c ≠ .comparator) (hr : r.Clear) (hrest : r.stream.rest = t :: rest)
    (hcategory : t.category = c) : Ensures pop r fun u r' =>
      u = t ∧ r.Spells [t.text] r' ∧ ofText t.text = c ∧ r'.Clear := by
  refine (pop_reads hrest).mono ?_
  rintro u r' ⟨rfl, hread⟩
  exact ⟨rfl, spells_of_category hmarker hquiet hread (hr.behind hread) hcategory⟩

theorem variableBinding_yields : Yields variableBinding Binding.words Binding.WellFormed := by
  intro r hr
  refine .seq (identifier_yields r hr) ?_
  rintro name r₁ ⟨h₁, hname, hr₁⟩
  refine atCategory_ensures (fun t rest hrest hcategory => ?_) ?_
  · refine .seq (popOf_ensures (by rfl) (by decide) hr₁ hrest hcategory) ?_
    rintro op r₂ ⟨rfl, h₂, -, hr₂⟩
    refine .guard fun hop => ?_
    rw [Classical.not_not.mp hop] at h₂
    refine .seq (expression_yields r₂ hr₂) ?_
    rintro value r₃ ⟨h₃, hvalue, hr₃⟩
    exact .pure ⟨h₁.trans (h₂.trans h₃), ⟨hname, hvalue⟩, hr₃⟩
  · exact .pure ⟨h₁, ⟨hname, trivial⟩, hr₁⟩

/-- A declaration is read from its first word on. -/
theorem variableDeclaration_ensures (hr : r.Behind t) : Ensures (variableDeclaration t) r fun s r' =>
      r.ParsedFrom t s.words s.WellFormed (fun _ => false) r' := by
  refine .seq (typeFrom_ensures hr) ?_
  rintro type r₁ ⟨ht, ws, hws, htype⟩
  refine .seq (Yields.bounded (commaList_yields variableBinding_yields) r₁ htype.clear) ?_
  rintro bindings r₂ ⟨h₂, ⟨hne, hbindings⟩, hr₂⟩
  refine .pure ⟨ht, ws ++ commaWords (bindings.map Binding.words), ?_, ?_⟩
  · rw [Simple.words, hws, cons_append]
  · exact ⟨htype.spells.trans h₂, ⟨htype.ok, hne, hbindings⟩, hr₂, Ends.never r₂⟩

/-! ## Parameters -/

theorem parameterBinding_ensures (hr : r.Clear) (hname : ofText name = .identifier) :
    Ensures (parameterBinding name) r fun b r' =>
      ∃ ws, b.words = name :: ws ∧ r.Spells ws r' ∧ b.WellFormed ∧ r'.Clear := by
  refine accept_ensures (by rfl) hr (fun r₁ hr₁ h₁ => ?_) fun _ => ?_
  · refine .seq (expression_yields r₁ hr₁) ?_
    rintro value r₂ ⟨h₂, hvalue, hr₂⟩
    exact .pure ⟨_, rfl, h₁.trans h₂, ⟨hname, hvalue⟩, hr₂⟩
  · exact .pure ⟨[], rfl, Spells.refl r, ⟨hname, trivial⟩, hr⟩

theorem storageFrom_ensures (n : Nat) (hr : r.Behind t) : Ensures (storageFrom n t) r fun a r' =>
      ∃ r₁ : Reader, (∀ w ∈ a.1, ofText w = .attributeWord) ∧ r'.Behind a.2 ∧
        (a.1 = [] ∧ a.2 = t ∧ r' = r ∨
          (t.IsCode ∧ Text.Quiet t.text) ∧ ∃ ws, a.1 = t.text :: ws ∧ r.Spells ws r₁ ∧ r₁.Reads [a.2] r') := by
  induction n generalizing r t with
  | zero => exact .throw
  | succ n ih =>
    rw [storageFrom]
    refine .ite (fun hattribute => ?_) fun _ => ?_
    · have ht : t.IsCode := by
        refine isCode_of_category hr.raw ?_ ?_ <;> rw [hattribute] <;> decide
      rw [category_eq hr.raw] at hattribute
      have hfirst : t.IsCode ∧ Text.Quiet t.text := ⟨ht, Text.quiet_of_category hattribute (by decide)⟩
      refine .seq (next_ensures _ (hr.clear ht)) ?_
      rintro u r₁ ⟨hread, hbehind⟩
      refine .seq (ih hbehind) ?_
      rintro ⟨storage, type⟩ r₂ ⟨r₃, hstorage, hr₂, hcase⟩
      refine .pure ?_
      rcases hcase with ⟨rfl, rfl, rfl⟩ | ⟨hu, ws, rfl, hws, hread₂⟩
      · exact ⟨r, forall_mem_singleton.mpr hattribute, hr₂, .inr ⟨hfirst, [], rfl, Spells.refl r, hread⟩⟩
      · exact ⟨r₃, forall_mem_cons.mpr ⟨hattribute, hstorage⟩, hr₂,
          .inr ⟨hfirst, _, rfl, (Spells.one hread hu.1 hu.2).trans hws, hread₂⟩⟩
    · exact .pure ⟨r, fun _ h => (nomatch h), hr, .inl ⟨rfl, rfl, rfl⟩⟩

/-- A name that joins a group is its last item. -/
theorem items_snoc {g : ParameterGroup} (hg : g.WellFormed) (b : Binding) :
    ParameterGroup.items { g with bindings := g.bindings ++ [b] } = g.items ++ [b.words] := by
  obtain ⟨storage, type, bindings⟩ := g
  obtain ⟨first, rest, rfl⟩ := exists_cons_of_ne_nil hg.nonempty
  simp [ParameterGroup.items]

/-- One more item is read, and comes last. -/
theorem parameter_ensures (hgroups : ∀ g ∈ groups, g.WellFormed) (hr : r.Clear) :
    Ensures (parameter groups) r fun groups' r' => ∃ item, r.Spells item r' ∧
      groups'.reverse.flatMap ParameterGroup.items
        = groups.reverse.flatMap ParameterGroup.items ++ [item] ∧
      (∀ g ∈ groups', g.WellFormed) ∧ r'.Clear := by
  refine .seq (next_ensures _ hr) ?_
  rintro t r₁ ⟨hread, hbehind⟩
  refine .ite (fun hname => ?_) fun _ => ?_
  · -- A name alone joins the latest group.
    obtain ⟨h₁, hname, hr₁⟩ := spells_of_category (by rfl) (by decide) hread hbehind hname
    cases groups with
    | nil => exact .throw
    | cons g gs =>
      obtain ⟨hg, hgs⟩ := forall_mem_cons.mp hgroups
      refine .seq (parameterBinding_ensures hr₁ hname) ?_
      rintro b r₂ ⟨ws, hws, h₂, hb, hr₂⟩
      refine .pure ⟨b.words, ?_, ?_, forall_mem_cons.mpr ⟨?_, hgs⟩, hr₂⟩
      · rw [hws]
        exact h₁.trans h₂
      · simp [items_snoc hg b]
      · refine ⟨hg.storage, hg.type, ?_, by simp⟩
        exact forall_mem_append.mpr ⟨hg.bindings, forall_mem_singleton.mpr hb⟩
  · -- Attributes and a type open a new one.
    refine .seq (bounded_ensures fun n => storageFrom_ensures n hbehind) ?_
    rintro ⟨storage, first⟩ r₂ ⟨r₃, hstorage, hr₂, hcase⟩
    refine .seq (typeFrom_ensures hr₂) ?_
    intro type r₄ htype
    have hitem : r.Spells (storage ++ type.words) r₄ ∧ type.WellFormed ∧ r₄.Clear := by
      rcases hcase with ⟨rfl, rfl, rfl⟩ | ⟨ht, ws, rfl, hws, hread₂⟩
      · have h := htype.after hread
        exact ⟨h.spells, h.ok, h.clear⟩
      · have h := htype.after hread₂
        exact ⟨((Spells.one hread ht.1 ht.2).trans hws).trans h.spells, h.ok, h.clear⟩
    obtain ⟨htypeWords, htypeOk, hr₄⟩ := hitem
    refine .seq (identifier_yields r₄ hr₄) ?_
    rintro name r₅ ⟨h₅, hname, hr₅⟩
    refine .seq (parameterBinding_ensures hr₅ hname) ?_
    rintro b r₆ ⟨ws, hws, h₆, hb, hr₆⟩
    refine .pure ⟨storage ++ (type.words ++ b.words), ?_, by simp [ParameterGroup.items],
      forall_mem_cons.mpr ⟨?_, hgroups⟩, hr₆⟩
    · rw [hws, ← append_assoc]
      exact htypeWords.trans (h₅.trans h₆)
    · exact ⟨hstorage, htypeOk, forall_mem_singleton.mpr hb, cons_ne_nil _ _⟩

/-- So the items are in order at the end. -/
theorem parametersIn_ensures (n : Nat) (hgroups : ∀ g ∈ groups, g.WellFormed) (hr : r.Clear) :
    Ensures (parametersIn n groups) r fun groups' r' => ∃ items, items ≠ [] ∧
      r.Spells (commaWords items ++ [(")" : Text)]) r' ∧
      groups'.flatMap ParameterGroup.items
        = groups.reverse.flatMap ParameterGroup.items ++ items ∧
      (∀ g ∈ groups', g.WellFormed) ∧ r'.Clear := by
  induction n generalizing r groups with
  | zero => exact .throw
  | succ n ih =>
    rw [parametersIn]
    refine .seq (parameter_ensures hgroups hr) ?_
    rintro groups₁ r₁ ⟨item, h₁, hitems, hgroups₁, hr₁⟩
    refine .seq (next_ensures _ hr₁) ?_
    rintro separator r₂ ⟨hread, hbehind⟩
    refine .ite (fun hclose => ?_) fun _ => .ite (fun hcomma => ?_) fun _ => .throw
    · obtain ⟨h₂, hr₂⟩ := spells_of_is (by rfl) hread hbehind hclose
      refine .pure ⟨[item], cons_ne_nil _ _, h₁.trans h₂, hitems, ?_, hr₂⟩
      simpa using hgroups₁
    · obtain ⟨h₂, hr₂⟩ := spells_of_is (by rfl) hread hbehind hcomma
      refine (ih hgroups₁ hr₂).mono ?_
      rintro groups₂ r₃ ⟨items, hne, h₃, hitems₂, hgroups₂, hr₃⟩
      refine ⟨item :: items, cons_ne_nil _ _, ?_, ?_, hgroups₂, hr₃⟩
      · rw [commaWords_cons _ hne, append_assoc]
        exact h₁.trans (h₂.trans h₃)
      · rw [hitems₂, hitems, append_assoc, singleton_append]

theorem parameters_yields : Yields parameters ParameterGroup.listWords fun groups => ∀ g ∈ groups, g.WellFormed := by
  intro r hr
  refine .seq (expect_ensures (by rfl) hr) ?_
  rintro _ r₁ ⟨h₁, hr₁⟩
  refine accept_ensures (by rfl) hr₁ (fun r₂ hr₂ h₂ => ?_) fun _ => ?_
  · exact .pure ⟨h₁.trans h₂, fun _ h => (nomatch h), hr₂⟩
  · refine (bounded_ensures fun n => parametersIn_ensures n (forall_mem_nil _) hr₁).mono ?_
    rintro groups r₂ ⟨items, -, h₂, hitems, hgroups, hr₂⟩
    have hitems : groups.flatMap ParameterGroup.items = items := hitems
    refine ⟨?_, hgroups, hr₂⟩
    rw [ParameterGroup.listWords, hitems]
    exact h₁.trans h₂

/-! ## Headers -/

theorem resultFrom_ensures (word : FunctionWord) (inClass : Bool) (bound : List Text)
    {parameters : List ParameterGroup} (hname : ofText name = .identifier)
    (hparameters : ∀ g ∈ parameters, g.WellFormed) (hr : r.Clear) :
    Ensures (resultFrom word inClass bound name parameters) r fun f r' =>
      f.name = name ∧ f.parameters = parameters ∧ f.word = word ∧ r.Spells f.resultWords r' ∧
        f.WellFormed ∧ r'.Clear := by
  refine atText_ensures (fun hnext => ?_) fun _ => ?_
  · refine .seq (pop_ensures (by rfl) hr hnext) ?_
    rintro arrow r₁ ⟨-, h₁, hr₁⟩
    refine .guard fun _ => ?_
    simp only [bind_map_left]
    refine nextType_ensures _ hr₁ fun type r₂ h₂ htype hr₂ => ?_
    exact .pure ⟨rfl, rfl, rfl, h₁.trans h₂, ⟨hname, hparameters,
      fun t ht => Option.mem_some_iff.mp ht ▸ htype⟩, hr₂⟩
  · exact .pure ⟨rfl, rfl, rfl, Spells.refl r, ⟨hname, hparameters, fun _ h => (nomatch h)⟩, hr⟩

/-- A function header is what was read behind its word. -/
theorem functionHeader_ensures (word : FunctionWord) (inClass : Bool) (bound : List Text) (hr : r.Clear) :
    Ensures (functionHeader word inClass bound) r fun f r' => ∃ bare, f.word = word ∧
      r.Spells (f.words bare) r' ∧ f.WellFormed ∧ r'.Clear := by
  rw [functionHeader_eq]
  refine .seq (identifier_yields r hr) ?_
  rintro name r₁ ⟨h₁, hname, hr₁⟩
  refine atText_ensures (fun _ => ?_) fun _ => ?_
  · refine .seq (parameters_yields r₁ hr₁) ?_
    rintro parameters r₂ ⟨h₂, hparameters, hr₂⟩
    refine (resultFrom_ensures word inClass bound hname hparameters hr₂).mono ?_
    rintro f r₃ ⟨rfl, rfl, hword, h₃, hf, hr₃⟩
    exact ⟨false, hword, h₁.trans (h₂.trans h₃), hf, hr₃⟩
  · refine (resultFrom_ensures word inClass bound hname (forall_mem_nil _) hr₁).mono ?_
    rintro f r₂ ⟨rfl, hparameters, hword, h₂, hf, hr₂⟩
    refine ⟨true, hword, ?_, hf, hr₂⟩
    rw [FunctionHeader.words, hparameters]
    exact h₁.trans h₂

theorem parent_yields : Yields parent TypeExpr.words TypeExpr.WellFormed := by
  intro r hr
  refine .seq (nextOf_reads _ _ hr) ?_
  rintro t r₁ ⟨hread, hbehind, -⟩
  refine (typeFrom_ensures hbehind).mono fun type r₂ h₂ => ?_
  have h := h₂.after hread
  exact ⟨h.spells, h.ok, h.clear⟩

theorem parentsFrom_ensures (word : UserType) {parameters : List Text}
    (hname : ofText name = .classIdentifier)
    (hparameters : ∀ name ∈ parameters, ofText name = .templateType) (hr : r.Clear) :
    Ensures (parentsFrom word name parameters) r fun u r' =>
      u.name = name ∧ u.parameters = parameters ∧ u.word = word ∧ r.Spells u.parentWords r' ∧
        u.WellFormed ∧ r'.Clear := by
  refine atText_ensures (fun hnext => ?_) fun _ => ?_
  · refine .seq (pop_ensures (by rfl) hr hnext) ?_
    rintro inherits r₁ ⟨-, h₁, hr₁⟩
    refine .guard fun _ => ?_
    refine .seq (Yields.bounded (commaList_yields parent_yields) r₁ hr₁) ?_
    rintro parents r₂ ⟨h₂, ⟨hne, hparents⟩, hr₂⟩
    refine .pure ⟨rfl, rfl, rfl, ?_, ⟨hname, hparameters, hparents⟩, hr₂⟩
    obtain ⟨first, rest, rfl⟩ := exists_cons_of_ne_nil hne
    exact h₁.trans h₂
  · exact .pure ⟨rfl, rfl, rfl, Spells.refl r, ⟨hname, hparameters, fun _ h => (nomatch h)⟩, hr⟩

/-- So is the header of a type. -/
theorem userTypeHeader_ensures (word : UserType) (hr : r.Clear) : Ensures (userTypeHeader word) r fun u r' =>
      u.word = word ∧ r.Spells u.words r' ∧ u.WellFormed ∧ r'.Clear := by
  rw [userTypeHeader_eq]
  refine .seq (nextOf_ensures (by rfl) (by decide) _ hr) ?_
  rintro name r₁ ⟨h₁, hname, hr₁⟩
  refine accept_ensures (by rfl) hr₁ (fun r₂ hr₂ h₂ => ?_) fun _ => ?_
  · refine .seq (Yields.bounded (listTo_yields (by rfl) (nextOf_yields (by rfl) (by decide) _)) r₂ hr₂) ?_
    rintro parameters r₃ ⟨h₃, ⟨hne, hparameters⟩, hr₃⟩
    refine (parentsFrom_ensures word hname hparameters hr₃).mono ?_
    rintro u r₄ ⟨hu, rfl, hword, h₄, hok, hr₄⟩
    refine ⟨hword, ?_, hok, hr₄⟩
    have hwords : u.parameterWords = parenWords (nameWords u.parameters) := by
      rw [UserTypeHeader.parameterWords]
      split
      · next hnil => exact absurd hnil hne
      · rfl
    rw [UserTypeHeader.words, hu, hwords]
    exact h₁.trans ((h₂.trans h₃).trans h₄)
  · refine (parentsFrom_ensures word hname (forall_mem_nil _) hr₁).mono ?_
    rintro u r₂ ⟨hu, hparameters, hword, h₂, hok, hr₂⟩
    refine ⟨hword, ?_, hok, hr₂⟩
    rw [UserTypeHeader.words, UserTypeHeader.parameterWords, hu, hparameters]
    exact h₁.trans h₂

theorem sequenceFrom_ensures {r₀ : Reader} {names : List Text}
    (hnames : ∀ name ∈ names, ofText name = .identifier) (h : r₀.Spells (nameWords names) r)
    (hquiet : ∀ w ∈ nameWords names, Text.Quiet w) (bare : Bool) (hr : r.Clear) :
    Ensures (sequenceFrom names) r fun a r' =>
      ∃ ws, a.words bare = ("for" : Text) :: ws ∧ r₀.Proceeds "for" ws r' ∧ a.WellFormed := by
  refine .seq (expect_takes (by rfl) hr) ?_
  rintro _ r₁ ⟨h₁, hr₁⟩
  refine .seq (expression_yields r₁ hr₁) ?_
  rintro sequence r₂ ⟨h₂, hsequence, hr₂⟩
  refine .pure ⟨_, rfl, ⟨h.code.trans (h₁.code.trans h₂.code), hr₂, ?_⟩, hnames, hsequence⟩
  refine (h.helpers.trans (h₁.helpers ▸ h₂.helpers)).congr fun x => ?_
  rw [Helper.askedBy_for hquiet, or_iff_right (Helper.not_within_of_quiet hquiet)]

theorem forHeader_yields (bare : Bool) : YieldsAfter "for" forHeader (Header.words bare) Header.WellFormed := by
  intro r hr
  have hquiet : ∀ {name : Text}, ofText name = .identifier → Text.Quiet name :=
    fun h => Text.quiet_of_category h (by decide)
  rw [forHeader_eq]
  refine .seq (identifier_yields r hr) ?_
  rintro first r₁ ⟨h₁, hfirst, hr₁⟩
  refine accept_ensures (by rfl) hr₁ (fun r₂ hr₂ h₂ => ?_) fun _ => ?_
  · refine .seq (identifier_yields r₂ hr₂) ?_
    rintro second r₃ ⟨h₃, hsecond, hr₃⟩
    refine sequenceFrom_ensures (forall_mem_cons.mpr ⟨hfirst, forall_mem_singleton.mpr hsecond⟩)
      (h₁.trans (h₂.trans h₃)) ?_ bare hr₃
    refine forall_mem_cons.mpr ⟨hquiet hfirst, forall_mem_cons.mpr ⟨by decide, ?_⟩⟩
    exact forall_mem_singleton.mpr (hquiet hsecond)
  · exact sequenceFrom_ensures (forall_mem_singleton.mpr hfirst) h₁
      (forall_mem_singleton.mpr (hquiet hfirst)) bare hr₁

theorem catchHeader_yields (bare : Bool) :
    YieldsAfter "except" catchHeader (Header.words bare) Header.WellFormed := by
  intro r hr
  have hfirst : ("except" : Text).Leads := Keyword.leads (k := .exceptionWord .exceptWord) rfl rfl
  refine nextType_ensures _ hr fun type r₁ h₁ htype hr₁ => ?_
  refine atCategory_ensures (fun t rest hrest hcategory => ?_) ?_
  · refine .seq (popOf_ensures (by rfl) (by decide) hr₁ hrest hcategory) ?_
    rintro name r₂ ⟨rfl, h₂, hname, hr₂⟩
    exact .pure ⟨_, rfl, (h₁.trans h₂).proceeds hfirst hr₂, htype,
      fun word hword => Option.some.inj hword ▸ hname⟩
  · refine .pure ⟨_, rfl, ?_, htype, fun _ h => (nomatch h)⟩
    rw [Option.toList_none, append_nil]
    exact h₁.proceeds hfirst hr₁

theorem raised_yields : YieldsAfter "raise" raised Simple.words Simple.WellFormed := by
  intro r hr
  have hfirst : ("raise" : Text).Leads := Keyword.leads (k := .exceptionWord .raiseWord) rfl rfl
  refine .seq (next_ensures _ hr) ?_
  rintro t r₁ ⟨hread, hbehind⟩
  refine .seq (atText_answers _ r₁) ?_
  rintro opens _ ⟨rfl, -⟩
  refine .ite (fun hclass => ?_) fun _ => ?_
  · rw [Bool.and_eq_true, decide_eq_true_iff] at hclass
    obtain ⟨h₁, hclass, hr₁⟩ := spells_of_category (by rfl) (by decide) hread hbehind hclass.1
    refine .seq (arguments_yields _ hr₁) ?_
    rintro arguments r₂ ⟨h₂, harguments, hr₂⟩
    exact .pure ⟨_, rfl, (h₁.trans h₂).proceeds hfirst hr₂, hclass, harguments⟩
  · refine .seq (expressionFrom_ensures hbehind) ?_
    intro value r₂ h₂
    have h := h₂.after hread
    exact .pure ⟨_, rfl, h.spells.proceeds hfirst h.clear, h.ok⟩

/-! ## Comments and raw lines -/

/-- The text of a comment whose sign has been read. Whatever follows is not raw any more. -/
theorem lineComment_ensures {sign : Token} (hsign : sign.isCommentSign)
    (hr : (sign :: r.stream.rest).IsChain Token.MayPrecede) : Ensures (lineComment sign) r fun c r' =>
      ∃ cs, r.Reads cs r' ∧ c.Written (sign :: cs) ∧ r'.Clear := by
  have hchain : r.Chained := hr.tail
  refine .seq (P := fun text r' => ∃ cs, r.Reads cs r' ∧
    LineComment.Written { documents := sign.text == "#.", text := text } (sign :: cs) ∧
    r'.Clear) ?_ fun text r' h => .pure h
  refine .seq (peek?_ensures r) ?_
  rintro _ r' ⟨rfl, rfl⟩
  rcases hrest : r'.stream.rest with _ | ⟨t, rest⟩
  · refine .pure ⟨[], Reads.refl _, .bare hsign, ?_, hchain⟩
    rw [hrest]
    exact fun _ h => nomatch h
  dsimp only [head?_cons]
  refine .ite (fun hraw => ?_) fun hraw => ?_
  · refine .seq (pop_reads hrest) ?_
    rintro u r₁ ⟨rfl, hread⟩
    refine .pure ⟨[u], hread, .text hsign hraw, ?_, hchain.reads hread.stream⟩
    -- Raw text is neither the sign of a comment nor a marker, so no raw text follows it.
    intro v hv
    have hrest₁ : r'.stream.rest = u :: r₁.stream.rest := hread.stream.1
    rw [Chained, hrest₁] at hchain
    rw [Bool.eq_false_iff]
    intro hvraw
    rcases hchain.rel_head? hv hvraw with hs | hm
    · rw [isCommentSign, Token.is, Token.is, hraw] at hs
      cases hs
    · rw [isMarker_of_raw hraw] at hm
      cases hm
  · refine .pure ⟨[], Reads.refl _, .bare hsign, ?_, hchain⟩
    rw [hrest]
    intro v hv
    rw [← Option.some.inj hv, Bool.eq_false_iff]
    exact hraw

theorem trailingComment_ensures (hr : r.Clear) : Ensures trailingComment r fun c r' =>
      ∃ cs, r.Reads cs r' ∧ LineComment.WrittenAfter c cs ∧ r'.Clear := by
  refine .seq (peek?_ensures r) ?_
  rintro _ r' ⟨rfl, rfl⟩
  rcases hrest : r'.stream.rest with _ | ⟨t, rest⟩
  · exact .pure ⟨[], Reads.refl _, rfl, hr⟩
  dsimp only [head?_cons]
  refine .ite (fun hsign => ?_) fun _ => ?_
  · refine .seq (pop_reads hrest) ?_
    rintro sign r₁ ⟨rfl, hread⟩
    refine .seq (lineComment_ensures hsign (hr.behind hread).chain) ?_
    rintro c r₂ ⟨cs, hcs, hwritten, hr₂⟩
    exact .pure ⟨sign :: cs, hread.trans hcs, hwritten, hr₂⟩
  · exact .pure ⟨[], Reads.refl _, rfl, hr⟩

/-- Raw lines are read up to the dedent. -/
theorem rawLinesIn_ensures (n : Nat) (r : Reader) : Ensures (rawLinesIn n) r fun lines r' =>
      ∃ ts, r.Reads ts r' ∧ RawWritten lines ts := by
  induction n generalizing r with
  | zero => exact .throw
  | succ n ih =>
    rw [rawLinesIn]
    refine .seq (next_reads _ r) ?_
    intro t r₁ hread
    refine .ite (fun hraw => ?_) fun _ => .ite (fun hnewline => ?_) fun _ => .ite (fun hdedent => ?_)
      fun _ => .throw
    · refine .seq (ih r₁) ?_
      rintro lines r₂ ⟨ts, hts, hlines⟩
      exact .pure ⟨t :: ts, hread.trans hts, .line hraw hlines⟩
    · refine (ih r₁).mono ?_
      rintro lines r₂ ⟨ts, hts, hlines⟩
      exact ⟨t :: ts, hread.trans hts, .newline hnewline hlines⟩
    · exact .pure ⟨[t], hread, .close hdedent⟩

end Parse

end Offside
