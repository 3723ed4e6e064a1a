/-
Groups of parameters.

The translation repeats storage and type for every name of a group. The parser never sees a whole
group: a plain name joins the latest one, anything else opens a new one. So the induction is on what
is left to read.
-/
import Offside.Proofs.Parse.Completeness
import Offside.Proofs.Parse.Declaration

set_option autoImplicit false

namespace Offside

open List Token Category ParameterGroup

/-! ## The translation of a parameter -/

theorem Binding.words_eq_cons (b : Binding) : ∃ ws, b.words = b.name :: ws := by
  rw [Binding.words]
  cases b.value <;> exact ⟨_, rfl⟩

variable {α : Type} {b : Binding} {ws : List Text} {bs : List Binding} {g : ParameterGroup}

theorem Binding.WellFormed.not_takes (hb : b.WellFormed) (type : TypeExpr) : type.takes b.name = false := by
  rw [Bool.eq_false_iff]
  intro htakes
  have hsign : b.name ∈ Lexeme.signs := by
    rcases type.word_of_takes htakes with hname | hname <;> rw [hname] <;> decide
  have hcategory := hb.1
  rw [ofText, Lexeme.ofText_sign hsign] at hcategory
  cases hcategory

namespace ParameterGroup

/-- A parameter of the group: the attributes, the type, the name, and the default if there is one. -/
def parameterCode (g : ParameterGroup) (b : Binding) : Text :=
  g.storage.flatMap (fun word => word ++ (" " : Text)) ++ g.type.code ++ (" " : Text) ++ b.name ++
    b.value.elim [] fun value => (" = " : Text) ++ value.code

/-- A parameter list has one item for each name, with the storage and type of its group. -/
theorem listCode_eq (groups : List ParameterGroup) :
    listCode groups = commaSeparated (groups.flatMap fun g => g.bindings.map g.parameterCode) := by
  have hcode : ∀ (g : ParameterGroup) (b : Binding), g.typeCode ++ " " ++ b.code = g.parameterCode b := by
    intro g b
    rw [typeCode, Text.join_snoc, parameterCode, Binding.code, append_assoc _ b.name]
    cases b.value with
    | none => rw [Option.elim_none, append_nil]
    | some value => simp only [Option.elim_some, append_assoc]
  rw [listCode, funext fun g => show codes g = _ from map_congr_left fun b _ => hcode g b]

def joined (bindings : List Binding) : List ParameterGroup → List ParameterGroup
  | [] => []
  | g :: gs => { g with bindings := g.bindings ++ bindings } :: gs

@[simp] theorem joined_nil (groups : List ParameterGroup) : joined [] groups = groups := by
  cases groups <;> simp [joined]

theorem joined_joined (bs bs' : List Binding) (groups : List ParameterGroup) :
    joined bs' (joined bs groups) = joined (bs ++ bs') groups := by
  cases groups <;> simp [joined]

end ParameterGroup

theorem ParameterGroup.items_eq (h : g.bindings = b :: bs) :
    g.items = (g.storage ++ (g.type.words ++ b.words)) :: bs.map Binding.words := by
  rw [items, h]

variable {c : α} {s₁ : Stream} {gs : List ParameterGroup}

theorem ParameterGroup.eq_nil_of_items (hgs : ∀ g ∈ gs, g.WellFormed)
    (h : bs.map Binding.words ++ gs.flatMap items = []) : bs = [] ∧ gs = [] := by
  obtain ⟨hbs, hitems⟩ := append_eq_nil_iff.mp h
  refine ⟨map_eq_nil_iff.mp hbs, eq_nil_iff_forall_not_mem.mpr fun g hg => ?_⟩
  obtain ⟨b, rest, hbindings⟩ := exists_cons_of_ne_nil (hgs g hg).nonempty
  have hnone := flatMap_eq_nil_iff.mp hitems g hg
  rw [items_eq hbindings] at hnone
  cases hnone

theorem ParameterGroup.WellFormed.words_eq_cons (hg : g.WellFormed) (ws : List Text) :
    ∃ v vs, g.storage ++ (g.type.words ++ ws) = v :: vs ∧ ofText v ≠ .identifier ∧ v ∉ Lexeme.signs := by
  obtain ⟨w, us, hus, hw⟩ := g.type.words_eq_cons hg.type
  have hsign : ∀ {v}, v ∈ Lexeme.signs → ofText v = .punctuation := fun hv => by
    rw [ofText, Lexeme.ofText_sign hv]
    rfl
  cases hstorage : g.storage with
  | nil =>
    refine ⟨w, us ++ ws, by rw [hus]; rfl, fun h => ?_, fun h => ?_⟩
    · rw [h] at hw
      cases hw
    · rw [hsign h] at hw
      cases hw
  | cons v storage =>
    have hv := hg.storage v (hstorage ▸ mem_cons_self)
    refine ⟨v, _, rfl, by rw [hv]; decide, fun h => ?_⟩
    rw [hsign h] at hv
    cases hv

/-! ## Reading a parameter off its words -/

namespace Parse

variable {r : Reader} {s' : Stream} {groups : List ParameterGroup}

theorem Gives.identifier {f : Text → Parse α} {name : Text} (hname : ofText name = .identifier)
    (h : r.stream.Ahead (name :: ws) s₁) (hf : ∀ r₁ : Reader, r₁.stream.Ahead ws s₁ → Gives (f name) r₁ c s') :
    Gives (Parse.identifier >>= f) r c s' := by
  rw [Parse.identifier, nextOf, bind_assoc, bind_assoc]
  refine .next _ h fun t r₁ ht htext h₁ => ?_
  rw [if_neg (by rw [category_eq ht, htext, hname]; decide)]
  rw [pure_bind, pure_bind, htext]
  exact hf r₁ h₁

def AtSeparator (s : Stream) : Prop := s.nextWord? = some ("," : Text) ∨ s.nextWord? = some (")" : Text)

theorem parameterBinding_gives (hb : b.WellFormed) (hws : b.words = b.name :: ws) (h : r.stream.Ahead ws s')
    (hend : AtSeparator s') : Gives (parameterBinding b.name) r b s' := by
  obtain ⟨name, value⟩ := b
  cases value with
  | none =>
    obtain ⟨-, rfl⟩ := cons.inj hws
    have hstop : r.stream.nextWord? ≠ some ("=" : Text) := by
      rw [← h.eq_of_nil]
      rcases hend with hw | hw <;> rw [hw] <;> decide
    exact .not_accept hstop (.done h)
  | some value =>
    obtain ⟨-, rfl⟩ := cons.inj hws
    refine Gives.accept h fun r₁ h₁ => ?_
    refine (Gives.bounded fun n => (exprComplete n).expression hb.2 h₁ ?_).map
    rcases hend with hw | hw <;> exact Stream.Ends.expr_of_closer value hw (by decide)

theorem storageFrom_gives (n : Nat) {f : List Text × Token → Parse α} {storage : List Text} {t : Token} {w : Text}
    {vs : List Text} (hstorage : ∀ v ∈ storage, ofText v = .attributeWord)
    (hw : ofText w ≠ .attributeWord) (ht : t.raw = false) (hwords : storage ++ w :: vs = t.text :: ws)
    (h : r.stream.Ahead ws s₁) (hf : ∀ (u : Token) (r₁ : Reader), u.raw = false → u.text = w → r₁.stream.Ahead vs s₁ →
      Gives (f (storage, u)) r₁ c s') : Gives (storageFrom n t >>= f) r c s' := by
  induction n generalizing storage t ws r f with
  | zero => exact .inr ⟨r, rfl⟩
  | succ n ih =>
    rw [storageFrom]
    cases storage with
    | nil =>
      obtain ⟨rfl, rfl⟩ := cons.inj hwords
      rw [if_neg (category_eq ht ▸ hw), pure_bind]
      exact hf t r ht rfl h
    | cons v storage =>
      rw [cons_append] at hwords
      obtain ⟨rfl, rfl⟩ := cons.inj hwords
      obtain ⟨hv, hstorage⟩ := forall_mem_cons.mp hstorage
      obtain ⟨v', ws', hws⟩ := exists_cons_of_ne_nil (append_ne_nil_of_right_ne_nil storage
        (cons_ne_nil w vs))
      rw [if_pos (category_eq ht ▸ hv), bind_assoc]
      rw [hws] at h
      refine .next _ h fun u r₁ hu hutext h₁ => ?_
      rw [bind_assoc]
      exact ih hstorage hu (hutext ▸ hws) h₁ fun u' r₂ hu' htext' h₂ => hf u' r₂ hu' htext' h₂

/-- A plain name joins the latest group. -/
theorem parameter_joins (hb : b.WellFormed) (hgroups : groups ≠ []) (h : r.stream.Ahead b.words s')
    (hend : AtSeparator s') : Gives (parameter groups) r (ParameterGroup.joined [b] groups) s' := by
  obtain ⟨g, gs, rfl⟩ := exists_cons_of_ne_nil hgroups
  obtain ⟨ws, hws⟩ := b.words_eq_cons
  rw [hws] at h
  refine .next _ h fun t r₁ ht htext h₁ => ?_
  rw [if_pos (by rw [category_eq ht, htext, hb.1]), htext]
  exact (parameterBinding_gives hb hws h₁ hend).map

/-- A parameter with a type opens a group. -/
theorem parameter_opens (hg : g.WellFormed) (hbindings : g.bindings = b :: bs)
    (h : r.stream.Ahead (g.storage ++ (g.type.words ++ b.words)) s') (hend : AtSeparator s') :
    Gives (parameter groups) r ({ g with bindings := [b] } :: groups) s' := by
  obtain ⟨w, vs, hvs, hw⟩ := g.type.words_eq_cons hg.type
  have hb : b.WellFormed := hg.bindings b (hbindings ▸ mem_cons_self)
  obtain ⟨ws, hws⟩ := b.words_eq_cons
  obtain ⟨v, vs', hv, hfirst, -⟩ := hg.words_eq_cons b.words
  rw [hv] at h
  rw [hvs, cons_append] at hv
  refine .next _ h fun t r₁ ht htext h₁ => ?_
  rw [if_neg (by rw [category_eq ht, htext]; exact hfirst), bounded_bind]
  refine .bounded fun n => storageFrom_gives n hg.storage ?_ ht (htext ▸ hv) h₁ fun u r₂ hu hutext h₂ => ?_
  · intro h
    rw [h] at hw
    cases hw
  · obtain ⟨s₁, htype, hbinding⟩ := h₂.split
    rw [hws] at hbinding
    refine .seq (.bounded fun n => (exprComplete n).typeFrom hg.type hu (hutext ▸ hvs) htype ?_) fun _ =>
      Gives.identifier hb.1 hbinding fun r₄ h₄ => (parameterBinding_gives hb hws h₄ hend).map
    intro v hv
    rw [hbinding.nextWord?] at hv
    exact Option.some.inj hv ▸ hb.not_takes g.type

/-! ## Reading all parameters -/

variable {n : Nat}

/-- One parameter is read, and then the rest of the list. -/
theorem parametersIn_step {groups' c : List ParameterGroup} {item : List Text} {items : List (List Text)}
    (h : r.stream.Ahead (commaWords (item :: items) ++ [(")" : Text)]) s')
    (hitem : ∀ s₁, r.stream.Ahead item s₁ → AtSeparator s₁ → Gives (parameter groups) r groups' s₁)
    (hlast : items = [] → c = groups'.reverse)
    (hmore : items ≠ [] → ∀ r₁ : Reader, r₁.stream.Ahead (commaWords items ++ [(")" : Text)]) s' →
      Gives (parametersIn n groups') r₁ c s') :
    Gives (parametersIn (n + 1) groups) r c s' := by
  rw [parametersIn]
  by_cases hitems : items = []
  · subst hitems
    obtain ⟨s₁, hfirst, hclose⟩ := h.split
    refine .seq (hitem s₁ hfirst (.inr hclose.nextWord?)) fun _ => ?_
    refine .next _ hclose fun t r₂ ht htext hend => ?_
    rw [if_pos (Token.is_iff.mpr ⟨ht, htext⟩), hlast rfl]
    exact .done hend
  · rw [commaWords_cons _ hitems, append_assoc] at h
    obtain ⟨s₁, hfirst, hrest⟩ := h.split
    refine .seq (hitem s₁ hfirst (.inl hrest.nextWord?)) fun _ => ?_
    refine .next _ hrest fun t r₂ ht htext hahead => ?_
    have hclose : t.is ")" ≠ true := by
      intro his
      exact absurd (htext.symm.trans (Token.is_iff.mp his).2) (by decide)
    rw [if_neg hclose, if_pos (Token.is_iff.mpr ⟨ht, htext⟩)]
    exact hmore hitems r₂ hahead

/-- What is left to read are further names of the latest group, and the groups behind it. -/
theorem parametersIn_gives (groups : List ParameterGroup) (bs : List Binding) {gs : List ParameterGroup}
    (hbs : ∀ b ∈ bs, b.WellFormed) (hgs : ∀ g ∈ gs, g.WellFormed) (hgroups : bs ≠ [] → groups ≠ [])
    (hne : bs.map Binding.words ++ gs.flatMap ParameterGroup.items ≠ [])
    (h : r.stream.Ahead (commaWords (bs.map Binding.words ++ gs.flatMap ParameterGroup.items) ++ [(")" : Text)]) s') :
    Gives (parametersIn n groups) r ((ParameterGroup.joined bs groups).reverse ++ gs) s' := by
  induction n generalizing groups bs gs r with
  | zero => exact .overBudget
  | succ n ih =>
    cases bs with
    | cons b bs =>
      obtain ⟨hb, hbs⟩ := forall_mem_cons.mp hbs
      have hjoined : ParameterGroup.joined [b] groups ≠ [] := by
        obtain ⟨g, gs, rfl⟩ := exists_cons_of_ne_nil (hgroups (cons_ne_nil _ _))
        exact cons_ne_nil _ _
      rw [← singleton_append, ← joined_joined]
      refine parametersIn_step h (fun s₁ => parameter_joins hb (hgroups (cons_ne_nil _ _))) ?_ fun hne r₁ =>
        ih _ bs hbs hgs (fun _ => hjoined) hne
      intro hlast
      obtain ⟨rfl, rfl⟩ := eq_nil_of_items hgs hlast
      rw [joined_nil, append_nil]
    | nil =>
      cases gs with
      | nil => exact absurd rfl hne
      | cons g gs =>
        obtain ⟨hg, hgs⟩ := forall_mem_cons.mp hgs
        obtain ⟨b, bs, hbindings⟩ := exists_cons_of_ne_nil hg.nonempty
        have hresult : (ParameterGroup.joined [] groups).reverse ++ g :: gs =
            (ParameterGroup.joined bs ({ g with bindings := [b] } :: groups)).reverse ++ gs := by
          rw [joined_nil, ParameterGroup.joined, reverse_cons, append_assoc,
            singleton_append, singleton_append, ← hbindings]
        rw [map_nil, nil_append, flatMap_cons, items_eq hbindings,
          cons_append] at h
        rw [hresult]
        refine parametersIn_step h (fun s₁ => parameter_opens hg hbindings) ?_ fun hne r₁ =>
          ih _ bs (fun b' hb' => hg.bindings b' (hbindings ▸ mem_cons_of_mem _ hb')) hgs
            (fun _ => cons_ne_nil _ _) hne
        intro hlast
        obtain ⟨rfl, rfl⟩ := eq_nil_of_items hgs hlast
        rw [joined_nil, append_nil]

/-- Well-formed groups are read off their words. -/
theorem parameters_gives (hgs : ∀ g ∈ gs, g.WellFormed) (h : r.stream.Ahead (listWords gs) s') :
    ∃ helpers, parameters r = .ok gs ⟨s', helpers⟩ := by
  have hgives : Gives parameters r gs s' := by
    refine .expect h fun r₁ h₁ => ?_
    by_cases hnone : gs = []
    · subst hnone
      exact .accept h₁ fun _ h₂ => .done h₂
    · have hne : ([] : List Binding).map Binding.words ++ gs.flatMap ParameterGroup.items ≠ [] :=
        fun h => hnone (eq_nil_of_items hgs h).2
      refine .not_accept ?_ (.bounded fun n => ?_)
      · obtain ⟨g, gs', rfl⟩ := exists_cons_of_ne_nil hnone
        have hg := hgs g mem_cons_self
        obtain ⟨b, bs, hbindings⟩ := exists_cons_of_ne_nil hg.nonempty
        obtain ⟨v, vs, hv, -, hsign⟩ := hg.words_eq_cons b.words
        rw [flatMap_cons, items_eq hbindings, hv, cons_append] at h₁
        exact h₁.list_ne_closer (fun h => hsign (mem_signs_of_mem_closers h)) (by decide)
      · exact parametersIn_gives [] [] (fun _ hb => nomatch hb) hgs (fun h => absurd rfl h) hne h₁
  exact hgives.ok_of_safe (parameters_safe r)

/-- **Groups of parameters are read as they are written, and every name gets what its own group
gives.** Well-formed groups are read off their words, whatever comes behind them, and what is read
without raw tokens are the words of such groups. Either way the translation has one parameter for
each name, in order. -/
theorem parameters_expand_groups :
    (∀ (groups : List ParameterGroup) (ts : List Token) (r : Reader) (s' : Stream), (∀ g ∈ groups, g.WellFormed) →
      ts.map Token.text = ParameterGroup.listWords groups → (∀ t ∈ ts, t.raw = false) → r.stream.Reads ts s' →
      ∃ helpers, (ParameterGroup.listCode <$> parameters) r = .ok
        (commaSeparated (groups.flatMap fun g => g.bindings.map g.parameterCode)) ⟨s', helpers⟩) ∧
    (∀ (r r' : Reader) (code : Text), (∀ t ∈ r.stream.rest, t.raw = false) →
      (ParameterGroup.listCode <$> parameters) r = .ok code r' →
      ∃ (groups : List ParameterGroup) (ts : List Token), r.stream.Reads ts r'.stream ∧
        ts.map Token.text = ParameterGroup.listWords groups ∧ (∀ g ∈ groups, g.WellFormed) ∧
        code = commaSeparated (groups.flatMap fun g => g.bindings.map g.parameterCode)) := by
  constructor
  · intro groups ts r s' hgroups hwords hraw hreads
    obtain ⟨helpers, hm⟩ := parameters_gives hgroups ⟨ts, hreads, hwords, hraw⟩
    refine ⟨helpers, ?_⟩
    rw [← bind_pure_comp, bind_of_ok _ hm, ← ParameterGroup.listCode_eq]
    rfl
  · intro r r' code hraw hm
    rw [← bind_pure_comp] at hm
    obtain ⟨groups, r₁, hgroups, hm⟩ := bind_ok hm
    cases hm
    obtain ⟨hspells, hok, -⟩ := parameters_yields r (Reader.clear_of_no_raw hraw) groups r' hgroups
    obtain ⟨ts, hreads, hwords, -⟩ := hspells.code
    exact ⟨groups, ts, hreads, hwords, hok, ParameterGroup.listCode_eq groups⟩

/-- Two groups, of which the first one has two names. -/
theorem parameters_expand_groups_shared : ∃ r', (ParameterGroup.listCode <$> parameters)
        ⟨Stream.ofWords ["(", "ref", "int", "a", ",", "b", "=", "1", ",", "T", "c", ")", ":"], {}⟩
        = .ok "ref int a, ref int b = 1, T c" r' ∧ r'.stream.nextWord? = some (":" : Text) ∧
      ∃ groups : List ParameterGroup, (∀ g ∈ groups, g.WellFormed) ∧
        ParameterGroup.listCode groups = "ref int a, ref int b = 1, T c" := by
  obtain ⟨helpers, hm⟩ := parameters_expand_groups.1
    [⟨["ref"], .plain "int" [], [⟨"a", none⟩, ⟨"b", some (.single (.atom "1" []))⟩]⟩,
      ⟨[], .plain "T" [], [⟨"c", none⟩]⟩]
    (Stream.tokensOfWords 1 0 ["(", "ref", "int", "a", ",", "b", "=", "1", ",", "T", "c", ")"])
    ⟨Stream.ofWords ["(", "ref", "int", "a", ",", "b", "=", "1", ",", "T", "c", ")", ":"], {}⟩
    ⟨(Stream.tokensOfWords 1 0 ["(", "ref", "int", "a", ",", "b", "=", "1", ",", "T", "c", ")"]).reverse,
      Stream.tokensOfWords 1 0 [":"]⟩
    (forall_mem_cons.mpr ⟨⟨by decide +kernel, ⟨by decide +kernel, trivial⟩,
      forall_mem_cons.mpr ⟨⟨by decide +kernel, trivial⟩,
        forall_mem_singleton.mpr ⟨by decide +kernel, by decide +kernel, trivial, trivial⟩⟩, cons_ne_nil _ _⟩,
      forall_mem_singleton.mpr ⟨by decide, ⟨by decide +kernel, trivial⟩,
        forall_mem_singleton.mpr ⟨by decide +kernel, trivial⟩, cons_ne_nil _ _⟩⟩)
    rfl (by decide) ⟨rfl, rfl⟩
  obtain ⟨groups, ts, -, -, hok, hcode⟩ := parameters_expand_groups.2 _ _ _ (by decide) hm
  exact ⟨_, hm, rfl, groups, hok, by rw [ParameterGroup.listCode_eq, ← hcode]; rfl⟩

end Parse

end Offside
