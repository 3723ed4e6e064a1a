/-
Every well-formed tree is read off its words.

When the words of a well-formed tree are ahead and the word behind them does not go on with it, the
parser returns that tree and stops right behind it. Each step is forced by the next word.
-/
import Offside.Proofs.Parse.Safety

set_option autoImplicit false

namespace Offside

open List Token TemplateArgument

/-! ## Words ahead -/

variable {close : Text}

namespace Stream

def Ahead (s : Stream) (words : List Text) (s' : Stream) : Prop :=
  s.Spells (fun t => t.raw = false) words s'

variable {s s' : Stream} {w : Text} {ws ws' : List Text}

theorem Ahead.nextWord? (h : s.Ahead (w :: ws) s') : s.nextWord? = some w :=
  Spells.nextWord? h fun _ ht => ht

theorem Ahead.eq_of_nil (h : s.Ahead [] s') : s' = s := by
  obtain ⟨ts, hts, htext, -⟩ := h
  rw [map_eq_nil_iff] at htext
  subst htext
  cases s
  cases s'
  obtain ⟨hrest, hseen⟩ := hts
  rw [reverse_nil, nil_append] at hseen
  rw [nil_append] at hrest
  cases hrest
  cases hseen
  rfl

/-- Words ahead can be read part by part. -/
theorem Ahead.split (h : s.Ahead (ws ++ ws') s') : ∃ s₁, s.Ahead ws s₁ ∧ s₁.Ahead ws' s' := by
  obtain ⟨ts, hts, htext, hraw⟩ := h
  obtain ⟨us, us', rfl, rfl, rfl⟩ := map_eq_append_iff.mp htext
  rw [forall_mem_append] at hraw
  refine ⟨⟨us.reverse ++ s.seen, us' ++ s'.rest⟩, ⟨us, ⟨?_, rfl⟩, rfl, hraw.1⟩, ⟨us', ⟨rfl, ?_⟩, rfl, hraw.2⟩⟩
  · rw [hts.1, append_assoc]
  · rw [hts.2, reverse_append, append_assoc]

theorem Ahead.cons (h : s.Ahead (w :: ws) s') : ∃ t rest, s.rest = t :: rest ∧ t.raw = false ∧
    t.text = w ∧ Stream.Ahead ⟨t :: s.seen, rest⟩ ws s' := by
  obtain ⟨ts, hts, htext, hraw⟩ := h
  cases ts with
  | nil => cases htext
  | cons t ts =>
    obtain ⟨htext, hws⟩ := cons.inj htext
    rw [forall_mem_cons] at hraw
    refine ⟨t, ts ++ s'.rest, hts.1, hraw.1, htext, ts, ⟨rfl, ?_⟩, hws, hraw.2⟩
    rw [hts.2, reverse_cons, append_assoc, singleton_append]

theorem Ahead.ne_closer (h : s.Ahead (w :: ws) s') (hw : w ∉ closers) (hclose : close ∈ closers) :
    s.nextWord? ≠ some close := by
  rw [h.nextWord?]
  intro heq
  cases heq
  exact hw hclose

theorem Ahead.list_ne_closer {items : List (List Text)} (h : s.Ahead (commaWords ((w :: ws) :: items) ++ ws') s')
    (hw : w ∉ closers) (hclose : close ∈ closers) : s.nextWord? ≠ some close := by
  obtain ⟨vs, hvs⟩ := commaWords_eq_cons w ws items
  rw [hvs, cons_append] at h
  exact h.ne_closer hw hclose

theorem Ends.expr_of_closer (e : Expr) (hw : s.nextWord? = some w) (h : w ∈ closers) : s.Ends e.extendedBy := by
  intro v hv
  rw [hw] at hv
  cases hv
  exact e.extendedBy_of_mem_closers h

end Stream

namespace Parse

/-! ## Results, unless the budget is used up -/

variable {α β : Type} {r : Reader} {s' s₁ : Stream} {a : α} {c : β} {w text : Text}
  {ws : List Text}

def Gives (p : Parse α) (r : Reader) (a : α) (s' : Stream) : Prop :=
  (∃ helpers, p r = .ok a ⟨s', helpers⟩) ∨ ∃ r', p r = .error (.violated overBudget) r'

variable {p q : Parse β}

theorem accept_of_ne (h : r.stream.nextWord? ≠ some text) : accept text r = .ok false r := by
  rw [accept, bind_of_ok _ (atText_word text r), decide_eq_false h]
  rfl

namespace Gives

theorem overBudget : Gives stopOverBudget r a s' := .inr ⟨r, rfl⟩

theorem pure (r : Reader) (a : α) : Gives (Pure.pure a) r a r.stream := .inl ⟨r.helpers, rfl⟩

/-- Nothing is left to read. -/
theorem done (h : r.stream.Ahead [] s') : Gives (Pure.pure a) r a s' := by
  rw [h.eq_of_nil]
  exact pure r a

theorem of_ok {p : Parse α} {r' : Reader} (h : p r = .ok a r') : Gives p r a r'.stream :=
  .inl ⟨r'.helpers, h⟩

/-- Results are given step by step. -/
theorem seq {p : Parse α} {f : α → Parse β} (h : Gives p r a s₁)
    (hf : ∀ helpers, Gives (f a) ⟨s₁, helpers⟩ c s') : Gives (p >>= f) r c s' := by
  rcases h with ⟨helpers, h⟩ | ⟨r', h⟩
  · rw [Gives, bind_of_ok f h]
    exact hf helpers
  · exact .inr ⟨r', bind_of_error f h⟩

/-- A safe parser is given enough budget. -/
theorem ok_of_safe {p : Parse α} {Q : α → Reader → Prop} (h : Gives p r a s') (hsafe : Safe p r Q) :
    ∃ helpers, p r = .ok a ⟨s', helpers⟩ := by
  refine h.resolve_right ?_
  rintro ⟨r', hover⟩
  obtain ⟨err, herr⟩ := hsafe.rejected_of_error hover
  cases herr

theorem map {p : Parse α} {f : α → β} (h : Gives p r a s') : Gives (p >>= fun a => Pure.pure (f a)) r (f a) s' :=
  seq h fun helpers => pure ⟨s', helpers⟩ (f a)

theorem next {f : Token → Parse β} (wanted : Text) (h : r.stream.Ahead (w :: ws) s₁)
    (hf : ∀ t (r₁ : Reader), t.raw = false → t.text = w → r₁.stream.Ahead ws s₁ →
      Gives (f t) r₁ c s') : Gives (Parse.next wanted >>= f) r c s' := by
  obtain ⟨t, rest, hrest, hraw, htext, hws⟩ := h.cons
  exact seq (of_ok (next_eq wanted hrest)) fun _ => hf t _ hraw htext hws

theorem expect {f : Unit → Parse β} (h : r.stream.Ahead (text :: ws) s₁)
    (hf : ∀ r₁ : Reader, r₁.stream.Ahead ws s₁ → Gives (f ()) r₁ c s') : Gives (Parse.expect text >>= f) r c s' := by
  rw [Parse.expect, bind_assoc]
  refine next text h fun t r₁ hraw htext hws => ?_
  rw [if_neg (by rw [is_iff.mpr ⟨hraw, htext⟩]; decide), pure_bind]
  exact hf r₁ hws

theorem accept (h : r.stream.Ahead (text :: ws) s₁) (hp : ∀ r₁ : Reader, r₁.stream.Ahead ws s₁ → Gives p r₁ c s') :
    Gives (do if ← Parse.accept text then p else q) r c s' := by
  obtain ⟨t, rest, hrest, hraw, htext, hws⟩ := h.cons
  rw [ifAccept_eq_popWhen, Gives, popWhen_of_cons hrest (is_iff.mpr ⟨hraw, htext⟩)]
  exact hp _ hws

theorem atText (h : r.stream.nextWord? = some text) (hp : Gives p r c s') :
    Gives (do if ← Parse.atText text then p else q) r c s' := by
  rw [Gives, bind_of_ok _ (atText_word text r), decide_eq_true h]
  exact hp

theorem not_atText (h : r.stream.nextWord? ≠ some text) (hq : Gives q r c s') :
    Gives (do if ← Parse.atText text then p else q) r c s' := by
  rw [Gives, bind_of_ok _ (atText_word text r), decide_eq_false h]
  exact hq

theorem not_accept (h : r.stream.nextWord? ≠ some text) (hq : Gives q r c s') :
    Gives (do if ← Parse.accept text then p else q) r c s' := by
  rw [Gives, bind_of_ok _ (accept_of_ne h)]
  exact hq

end Gives

/-- Each well-formed tree is read off its words, if what is behind them does not go on with it. -/
def Recovers (p : Parse α) (words : α → List Text) (WellFormed : α → Prop) (goesOn : α → Text → Bool) : Prop :=
  ∀ ⦃a r s'⦄, WellFormed a → r.stream.Ahead (words a) s' → s'.Ends (goesOn a) → Gives p r a s'

/-- The same from behind the first of the words. -/
def RecoversFrom (p : Token → Parse α) (words : α → List Text) (WellFormed : α → Prop)
    (goesOn : α → Text → Bool) : Prop :=
  ∀ ⦃a t ws r s'⦄, WellFormed a → t.raw = false → words a = t.text :: ws → r.stream.Ahead ws s' →
    s'.Ends (goesOn a) → Gives (p t) r a s'

/-- A tree is read off its words from the first on. -/
theorem RecoversFrom.next {p : Token → Parse α} {words : α → List Text} {WellFormed : α → Prop}
    {goesOn : α → Text → Bool} {P : Text → Prop} {f : α → Parse β} (h : RecoversFrom p words WellFormed goesOn)
    (hcons : ∀ a, WellFormed a → ∃ w ws, words a = w :: ws ∧ P w) (wanted : Text) (ha : WellFormed a)
    (hahead : r.stream.Ahead (words a) s₁) (hends : s₁.Ends (goesOn a))
    (hf : ∀ helpers, Gives (f a) ⟨s₁, helpers⟩ c s') :
    Gives (Parse.next wanted >>= fun t => p t >>= f) r c s' := by
  obtain ⟨w, ws, hws, -⟩ := hcons a ha
  rw [hws] at hahead
  refine .next wanted hahead fun t r₁ hraw htext hrest => .seq ?_ hf
  exact h ha hraw (by rw [hws, htext]) hrest hends

/-- Items with commas between them, each of which is read if a comma or the end follows. -/
theorem listTo_gives {item : Parse α} {words : α → List Text} {as : List α} (n : Nat)
    (hcomma : ("," : Text) ≠ close) (hne : as ≠ [])
    (hitem : ∀ a ∈ as, ∀ {r : Reader} {s' : Stream}, r.stream.Ahead (words a) s' →
      s'.nextWord? = some ("," : Text) ∨ s'.nextWord? = some close → Gives item r a s')
    (h : r.stream.Ahead (commaWords (as.map words) ++ [close]) s') : Gives (listTo close item n) r as s' := by
  induction n generalizing as r with
  | zero => exact .overBudget
  | succ n ih =>
    cases as with
    | nil => exact absurd rfl hne
    | cons a as =>
      rw [listTo]
      rw [forall_mem_cons] at hitem
      by_cases has : as = []
      · subst has
        obtain ⟨s₁, hitems, hclose⟩ := h.split
        refine .seq (hitem.1 hitems (.inr hclose.nextWord?)) fun _ => ?_
        refine .next close hclose fun t r₂ hraw htext hend => ?_
        rw [if_pos (is_iff.mpr ⟨hraw, htext⟩)]
        exact .done hend
      · rw [map_cons, commaWords_cons _ fun h => has (map_eq_nil_iff.mp h), append_assoc] at h
        obtain ⟨s₁, hfirst, hrest⟩ := h.split
        refine .seq (hitem.1 hfirst (.inl hrest.nextWord?)) fun _ => ?_
        refine .next close hrest fun t r₂ hraw htext hmore => ?_
        rw [if_neg (fun h => hcomma (htext.symm.trans (is_iff.mp h).2)),
          if_pos (is_iff.mpr ⟨hraw, htext⟩)]
        exact (ih has hitem.2 hmore).map

/-! ## Operators -/

variable {op : BinaryOp}

/-- An operator is read off its words. -/
theorem operatorAt_gives {t : Token} (hop : op.WellFormed) (hrange : op ≠ .range) (hraw : t.raw = false)
    {rest : List Token} (hrest : r.stream.rest = t :: rest) (hwords : op.words = t.text :: ws)
    (h : (r.advance t rest).stream.Ahead ws s') : Gives (operatorAt t) r (some op) s' := by
  have hpop : ∀ {f : Unit → Parse (Option BinaryOp)},
      Gives (f ()) (r.advance t rest) (some op) s' → Gives (discard pop >>= f) r (some op) s' := by
    intro f hf
    rw [Gives, discard_bind, bind_of_ok _ (pop_eq hrest)]
    exact hf
  rw [operatorAt, lexeme_eq hraw]
  cases op with
  | range => exact absurd rfl hrange
  | arithmetic symbol =>
    obtain ⟨rfl, rfl⟩ := cons.inj hwords
    rw [show Lexeme.ofText t.text = _ from hop]
    exact hpop (.done h)
  | and =>
    obtain ⟨htext, rfl⟩ := cons.inj hwords
    rw [Lexeme.ofText_eq_logical_iff (w := .and).mpr htext.symm]
    exact hpop (.done h)
  | or =>
    obtain ⟨htext, rfl⟩ := cons.inj hwords
    rw [Lexeme.ofText_eq_logical_iff (w := .or).mpr htext.symm]
    exact hpop (.done h)
  | compare negated c =>
    cases negated with
    | false =>
      obtain ⟨htext, rfl⟩ := cons.inj hwords
      rw [Lexeme.ofText_eq_comparator_iff.mpr htext.symm]
      exact hpop (.done h)
    | true =>
      obtain ⟨htext, rfl⟩ := cons.inj hwords
      rw [Lexeme.ofText_eq_logical_iff (w := .not).mpr htext.symm]
      refine hpop (.next _ h fun u r₂ huraw hu hend => ?_)
      rw [lexeme_eq huraw, Lexeme.ofText_eq_comparator_iff.mpr hu]
      exact .done hend

theorem binaryOp?_gives (hop : op.WellFormed) (h : r.stream.Ahead op.words s') : Gives binaryOp? r (some op) s' := by
  rw [binaryOp?_eq]
  by_cases hrange : op = .range
  · subst hrange
    exact .accept h fun _ hend => .done hend
  obtain ⟨w, ws, hws, -⟩ := op.words_eq_cons hop
  rw [hws] at h
  refine .not_accept ?_ ?_
  · rw [h.nextWord?]
    exact fun hw => BinaryOp.words_ne_range hop hrange hws (Option.some.inj hw)
  · obtain ⟨t, rest, hrest, hraw, rfl, hahead⟩ := h.cons
    rw [Gives, bind_of_ok _ (peek?_eq r), hrest]
    exact operatorAt_gives hop hrange hraw hrest hws hahead

/-- No operator is read in front of a word that is none. -/
theorem binaryOp?_of_ends (h : r.Ends joinsOperands) : binaryOp? r = .ok none r := by
  have hrange : r.stream.nextWord? ≠ some ".." := fun hw => absurd (h _ hw) (by decide)
  rw [binaryOp?_eq, bind_of_ok _ (accept_of_ne hrange), if_neg Bool.false_ne_true, bind_of_ok _ (peek?_eq r)]
  cases hrest : r.stream.rest with
  | nil => rfl
  | cons t rest =>
    have hbinary : t.lexeme.category.isBinary = false := by
      cases hraw : t.raw with
      | true => rw [lexeme, hraw]; rfl
      | false =>
        have hjoins := h t.text (Stream.nextWord?_cons hrest hraw)
        rw [joinsOperands, Bool.or_eq_false_iff] at hjoins
        rw [lexeme_eq hraw]
        exact hjoins.2
    have hnone : operatorAt t = pure none := by
      rw [operatorAt]
      cases hlex : t.lexeme with
      | shape s => rfl
      | plain => rfl
      | keyword k =>
        rw [hlex] at hbinary
        cases k with
        | operator => cases hbinary
        | comparator c => cases hbinary
        | logical w => cases hbinary
        | _ => rfl
    change operatorAt t r = _
    rw [hnone]
    rfl

/-- No operator is read where none is ahead. -/
theorem binaryOp?_gives_none (h : r.Ends joinsOperands) : Gives binaryOp? r none r.stream :=
  .inl ⟨r.helpers, binaryOp?_of_ends h⟩

/-! ## Expressions and types -/

/-- What the parsers of expressions and types make of the words of a tree, with budget `b`. -/
structure ExprComplete (b : Nat) : Prop where
  expression : Recovers (expressionIn b) Expr.words Expr.WellFormed Expr.extendedBy
  expressionFrom : RecoversFrom (expressionFromIn b) Expr.words Expr.WellFormed Expr.extendedBy
  operand : RecoversFrom (operandIn b) Operand.words Operand.WellFormed Operand.extendedBy
  element : ∀ {e : Element} {r s'}, e.WellFormed → r.stream.Ahead e.words s' →
    s'.nextWord? = some ("," : Text) ∨ s'.nextWord? = some ("]" : Text) → Gives (elementIn b) r e s'
  accessor? : ∀ {a : Accessor} {r s'}, a.WellFormed → r.stream.Ahead a.words s' → s'.Ends a.takes →
    Gives (accessorIn? b) r (some a) s'
  accessor?_none : ∀ {r}, r.Ends startsAccessor → Gives (accessorIn? b) r none r.stream
  bracket : ∀ {a : Accessor} {ws r s'}, a.WellFormed → a.words = ("[" : Text) :: ws → r.stream.Ahead ws s' →
    Gives (bracketIn b) r a s'
  arguments : ∀ {es r s'}, Expr.AllWellFormed es →
    r.stream.Ahead (parenWords (commaWords (Expr.wordLists es))) s' → Gives (argumentsIn b) r es s'
  templateArgument : Recovers (templateArgumentIn b) TemplateArgument.words TemplateArgument.WellFormed
    TemplateArgument.takes
  typeFrom : RecoversFrom (typeFromIn b) TypeExpr.words TypeExpr.WellFormed TypeExpr.takes
  dimensions? : ∀ {sizes r s'}, sizes ≠ [] → Expr.SizesWellFormed sizes →
    r.stream.Ahead (bracketWords (commaWords (Expr.sizeWords sizes))) s' → Gives (dimensionsIn? b) r (some sizes) s'
  dimensions?_none : ∀ {r : Reader}, r.stream.nextWord? ≠ some ("[" : Text) →
    Gives (dimensionsIn? b) r none r.stream
  dimensionList : ∀ {sizes r s'}, sizes ≠ [] → Expr.SizesWellFormed sizes →
    r.stream.Ahead (commaWords (Expr.sizeWords sizes) ++ [("]" : Text)]) s' → Gives (dimensionListIn b) r sizes s'

theorem nextWord?_ne_closer {e : Expr} (he : e.WellFormed) (h : r.stream.Ahead e.words s')
    (hclose : close ∈ closers) : r.stream.nextWord? ≠ some close := by
  obtain ⟨w, ws, hws, hw⟩ := e.words_eq_cons he
  rw [hws] at h
  exact h.ne_closer hw hclose

theorem nextWord?_ne_paren {a : TemplateArgument} (ha : a.WellFormed) (h : r.stream.Ahead a.words s') :
    r.stream.nextWord? ≠ some ("(" : Text) := by
  obtain ⟨w, ws, hws, hw⟩ := a.words_eq_cons ha
  rw [hws] at h
  rw [h.nextWord?]
  exact fun heq => hw (Option.some.inj heq)

namespace ExprComplete

variable {b : Nat} (ih : ExprComplete b)
include ih

/-- One more level of recursion, for each parser. -/
theorem expression_succ :
    Recovers (expressionIn (b + 1)) Expr.words Expr.WellFormed Expr.extendedBy := by
  intro e r s' he h hends
  obtain ⟨w, ws, hws, -⟩ := e.words_eq_cons he
  rw [hws] at h
  refine .next _ h fun t r₁ hraw htext hahead => ?_
  exact ih.expressionFrom he hraw (by rw [hws, htext]) hahead hends

/-- An expression in front of a word that ends it. -/
theorem closed {e : Expr} (he : e.WellFormed) (h : r.stream.Ahead e.words s₁)
    (hrest : s₁.Ahead (w :: ws) s') (hw : w ∈ closers) : Gives (expressionIn b) r e s₁ :=
  ih.expression he h (Stream.Ends.expr_of_closer e hrest.nextWord? hw)

theorem expressionFrom_succ :
    RecoversFrom (expressionFromIn (b + 1)) Expr.words Expr.WellFormed Expr.extendedBy := by
  intro e t ws r s' he hraw hws h hends
  rw [expressionFromIn]
  cases e with
  | single operand =>
    -- What does not go on with the expression neither goes on with its operand nor joins it.
    refine .seq (ih.operand he hraw hws h fun w hw => ?_) fun _ => .seq (binaryOp?_gives_none fun w hw => ?_)
      fun _ => .pure _ _
    · exact (Bool.or_eq_false_iff.mp (hends w hw)).1
    · exact (Bool.or_eq_false_iff.mp (hends w hw)).2
  | binary left op right =>
    obtain ⟨w, ws', hleft, -⟩ := left.words_eq_cons he.1
    obtain ⟨v, vs, hop, hjoins⟩ := op.words_eq_cons he.2.1
    have hsplit := hws
    rw [Expr.words, hleft, cons_append] at hsplit
    obtain ⟨rfl, rfl⟩ := cons.inj hsplit
    obtain ⟨s₁, hahead, hrest⟩ := h.split
    obtain ⟨s₂, hopAhead, hright⟩ := hrest.split
    refine .seq (ih.operand he.1 hraw hleft hahead fun u hu => ?_) fun _ => ?_
    · -- An operator never goes on with an operand.
      rw [hop] at hopAhead
      rw [hopAhead.nextWord?] at hu
      cases hu
      rw [Bool.eq_false_iff]
      intro hext
      rw [joinsOperands_of_startsAccessor (left.startsAccessor_of_extendedBy hext)] at hjoins
      cases hjoins
    · refine .seq (binaryOp?_gives he.2.1 hopAhead) fun _ => ?_
      refine .seq (ih.expression he.2.2 hright hends) fun _ => ?_
      cases op.helper? with
      | none => exact .pure _ _
      | some helper => exact .seq (.of_ok rfl) fun _ => .pure _ _

/-- A chain of accessors. The first word of the next one is never taken by the one before. -/
theorem accessors (n : Nat) {as : List Accessor} (has : Accessor.AllWellFormed as)
    (hsep : Accessor.Separate as) (h : r.stream.Ahead (Accessor.chainWords as) s') (hends : s'.Ends startsAccessor) :
    Gives (many (accessorIn? b) n) r as s' := by
  induction n generalizing as r with
  | zero => exact .overBudget
  | succ n ihn =>
    cases as with
    | nil =>
      obtain rfl := h.eq_of_nil
      exact (ih.accessor?_none hends).seq fun _ => .pure _ _
    | cons a as =>
      obtain ⟨s₁, ha, hmore⟩ := h.split
      refine .seq (ih.accessor? has.1 ha fun w hw => ?_) fun _ => (ihn has.2 hsep.2 hmore).map
      cases as with
      | nil =>
        -- The chain ends here, and what is behind it starts no accessor.
        obtain rfl := hmore.eq_of_nil
        rw [Bool.eq_false_iff]
        intro htakes
        have := hends w hw
        rw [a.startsAccessor_of_takes htakes] at this
        cases this
      | cons a' as =>
        obtain ⟨ws, hws⟩ := a'.words_eq_cons
        rw [Accessor.chainWords, hws, cons_append] at hmore
        rw [hmore.nextWord?] at hw
        cases hw
        exact hsep.1 a' rfl

theorem dimensionGroups (n : Nat) {groups : List (List (Option Expr))}
    (hok : Expr.GroupsWellFormed groups) (h : r.stream.Ahead (Expr.groupsWords groups) s')
    (hends : s'.nextWord? ≠ some ("[" : Text)) : Gives (many (dimensionsIn? b) n) r groups s' := by
  induction n generalizing groups r with
  | zero => exact .overBudget
  | succ n ihn =>
    cases groups with
    | nil =>
      obtain rfl := h.eq_of_nil
      exact (ih.dimensions?_none hends).seq fun _ => .pure _ _
    | cons sizes groups =>
      obtain ⟨s₁, hsizes, hmore⟩ := h.split
      exact (ih.dimensions? hok.1 hok.2.1 hsizes).seq fun _ => (ihn hok.2.2 hmore).map

theorem templateArguments (n : Nat) {as : List TemplateArgument} (hne : as ≠ [])
    (has : TemplateArgument.AllWellFormed as)
    (h : r.stream.Ahead (commaWords (wordLists as) ++ [(")" : Text)]) s') :
    Gives (listTo ")" (templateArgumentIn b) n) r as s' := by
  rw [wordLists_eq] at h
  refine listTo_gives n (by decide) hne (fun a ha r s' hahead hnext => ?_) h
  refine ih.templateArgument (allWellFormed_iff.mp has a ha) hahead fun w hw => ?_
  rw [Bool.eq_false_iff]
  intro htakes
  have hstarts := startsAccessor_of_bracket_or_bang (a.word_of_takes htakes)
  rcases hnext with hnext | hnext <;> rw [hnext] at hw <;> cases hw <;> cases hstarts

theorem operand_succ :
    RecoversFrom (operandIn (b + 1)) Operand.words Operand.WellFormed Operand.extendedBy := by
  intro o t ws r s' ho hraw hws h hends
  rw [operandIn]
  -- The first word tells what operand it is.
  have hstart : ∀ start : OperandStart, start.Fits t.text → operandStart? t = some start :=
    fun _ => (operandStart?_eq_some_iff hraw).mpr
  cases o with
  | minus inner =>
    obtain ⟨htext, rfl⟩ := cons.inj hws
    rw [hstart .minus htext.symm]
    exact ih.operand.next (a := inner) Operand.words_eq_cons _ ho h hends fun _ => .pure _ _
  | negation inner =>
    obtain ⟨htext, rfl⟩ := cons.inj hws
    rw [hstart .negation htext.symm]
    exact ih.operand.next (a := inner) Operand.words_eq_cons _ ho h hends fun _ => .pure _ _
  | new type =>
    obtain ⟨htext, rfl⟩ := cons.inj hws
    rw [hstart .new htext.symm]
    refine ih.typeFrom.next TypeExpr.words_eq_cons _ ho h (fun w hw => (Bool.or_eq_false_iff.mp (hends w hw)).2)
      fun _ => .not_atText (fun hparen => ?_) (.pure _ _)
    exact absurd (Bool.or_eq_false_iff.mp (hends _ hparen)).1 (by decide)
  | newCall type arguments =>
    obtain ⟨htext, rfl⟩ := cons.inj hws
    obtain ⟨s₁, htype, hargs⟩ := h.split
    have hparen : s₁.nextWord? = some ("(" : Text) := hargs.nextWord?
    rw [hstart .new htext.symm]
    refine ih.typeFrom.next TypeExpr.words_eq_cons _ ho.1 htype (fun w hw => ?_) fun _ => .atText hparen
      (ih.arguments ho.2 hargs).map
    -- A type does not take the parenthesis of a call.
    rw [hparen] at hw
    cases hw
    rw [Bool.eq_false_iff]
    intro htakes
    exact absurd (type.word_of_takes htakes) (by decide)
  | atom text as =>
    obtain ⟨rfl, rfl⟩ := cons.inj hws
    rw [hstart .atom ho.1]
    exact (ih.accessors b ho.2.1 ho.2.2 h hends).map
  | group inner as =>
    rw [Operand.words, parenWords, cons_append, List.cons.injEq, append_assoc] at hws
    obtain ⟨htext, rfl⟩ := hws
    obtain ⟨s₁, hinner, hrest⟩ := h.split
    rw [hstart .group htext.symm]
    refine .seq (ih.closed ho.1 hinner hrest (by decide)) fun _ => .expect hrest fun r₂ hchain => ?_
    exact (ih.accessors b ho.2.1 ho.2.2 hchain hends).map
  | array elements as =>
    rw [Operand.words, bracketWords, cons_append, List.cons.injEq] at hws
    obtain ⟨htext, rfl⟩ := hws
    obtain ⟨s₁, helements, hchain⟩ := h.split
    have haccessors : ∀ helpers, Gives (do
        return Operand.array elements (← many (accessorIn? b) b)) ⟨s₁, helpers⟩ (.array elements as) s' :=
      fun _ => (ih.accessors b ho.2.1 ho.2.2 hchain hends).map
    rw [hstart .array htext.symm]
    dsimp only
    by_cases hne : elements = []
    · subst hne
      refine .accept helements fun r₁ hend => ?_
      rw [pure_bind]
      obtain rfl := hend.eq_of_nil
      exact haccessors r₁.helpers
    · refine .not_accept ?_ ?_
      · -- The first element does not begin with the closing bracket.
        obtain ⟨e, es, rfl⟩ := exists_cons_of_ne_nil hne
        obtain ⟨w, ws, hws, hw⟩ := e.words_eq_cons ho.1.1
        rw [Element.wordLists, hws] at helements
        exact helements.list_ne_closer hw (by decide)
      · rw [Element.wordLists_eq] at helements
        refine .seq (listTo_gives b (by decide) hne (fun e he r s' hahead hnext => ?_) helements) haccessors
        exact ih.element (Element.allWellFormed_iff.mp ho.1 e he) hahead hnext

theorem element_succ {e : Element} (he : e.WellFormed) (h : r.stream.Ahead e.words s')
    (hnext : s'.nextWord? = some ("," : Text) ∨ s'.nextWord? = some ("]" : Text)) :
    Gives (elementIn (b + 1)) r e s' := by
  rw [elementIn]
  have hends : ∀ value : Expr, s'.Ends value.extendedBy := by
    intro value
    rcases hnext with hnext | hnext <;>
      exact Stream.Ends.expr_of_closer value hnext (by decide)
  cases e with
  | item value =>
    refine .seq (ih.expression he h (hends value)) fun _ => .not_accept ?_ (.pure _ _)
    rcases hnext with hnext | hnext <;> rw [hnext] <;> decide
  | entry key value =>
    obtain ⟨s₁, hkey, hrest⟩ := h.split
    refine .seq (ih.closed he.1 hkey hrest (by decide)) fun _ => .accept hrest fun r₂ hvalue => ?_
    exact (ih.expression he.2 hvalue (hends value)).map

omit ih in
theorem accessor?_none_succ (h : r.Ends startsAccessor) : Gives (accessorIn? (b + 1)) r none r.stream := by
  have hne : ∀ {w : Text}, startsAccessor w → r.stream.nextWord? ≠ some w := by
    intro w hw hnext
    rw [h w hnext] at hw
    cases hw
  rw [accessorIn?]
  refine .not_accept (hne rfl) (.not_accept (hne rfl) (.not_atText (hne rfl) ?_))
  exact .not_accept (hne rfl) (.pure _ _)

theorem accessor?_succ {a : Accessor} (ha : a.WellFormed) (h : r.stream.Ahead a.words s')
    (hends : s'.Ends a.takes) : Gives (accessorIn? (b + 1)) r (some a) s' := by
  rw [accessorIn?]
  obtain ⟨ws, hws⟩ := a.words_eq_cons
  rw [hws] at h
  have hne : ∀ (v : Text) {w : Text}, a.firstWord = v → v ≠ w → r.stream.nextWord? ≠ some w := by
    rintro _ w rfl hw hnext
    exact hw (Option.some.inj (h.nextWord?.symm.trans hnext))
  -- Index and slice begin with the same word; which one it is shows behind it.
  have hbracket : a.words = ("[" : Text) :: ws → ∀ r₁ : Reader, r₁.stream.Ahead ws s' →
      Gives (do return some (← bracketIn b)) r₁ (some a) s' :=
    fun hws r₁ hahead => (ih.bracket ha hws hahead).map
  cases a with
  | member name =>
    obtain ⟨-, rfl⟩ := cons.inj hws
    refine .accept h fun r₁ hahead => ?_
    refine .next _ hahead fun t r₂ hraw htext hend => ?_
    rw [if_neg]
    · rw [htext]
      exact .done hend
    · rw [Token.isWord, hraw, htext, show name.isWord = true from ha]
      decide
  | whole | index position | slice low high =>
    exact .not_accept (hne "[" rfl (by decide)) (.accept h (hbracket hws))
  | call arguments =>
    refine .not_accept (hne "(" rfl (by decide)) (.not_accept (hne "(" rfl (by decide)) ?_)
    refine .atText h.nextWord? ?_
    rw [← hws] at h
    exact (ih.arguments ha h).map
  | instantiate argument =>
    obtain ⟨-, rfl⟩ := cons.inj hws
    refine .not_accept (hne "!" rfl (by decide)) (.not_accept (hne "!" rfl (by decide)) ?_)
    refine .not_atText (hne "!" rfl (by decide)) (.accept h fun r₁ hahead => ?_)
    exact .not_accept (nextWord?_ne_paren ha hahead) (ih.templateArgument ha hahead hends).map
  | instantiateAll arguments =>
    obtain ⟨-, rfl⟩ := cons.inj hws
    refine .not_accept (hne "!" rfl (by decide)) (.not_accept (hne "!" rfl (by decide)) ?_)
    refine .not_atText (hne "!" rfl (by decide)) (.accept h fun r₁ hahead => ?_)
    exact .accept hahead fun r₂ hargs => (ih.templateArguments b ha.1 ha.2 hargs).map

theorem sliceFrom_gives (low : Option Expr) {high : Option Expr}
    (hhigh : Expr.OptionalWellFormed high)
    (h : r.stream.Ahead ((":" : Text) :: (Expr.optionalWords high ++ [("]" : Text)])) s') :
    Gives (sliceFrom (expressionIn b) low) r (.slice low high) s' := by
  obtain ⟨t, rest, hrest, -, -, hahead⟩ := h.cons
  have hend : ∀ {r₁ : Reader}, r₁.stream.Ahead [("]" : Text)] s' → Gives (do
      expect "]"
      return Accessor.slice low high) r₁ (.slice low high) s' :=
    fun h₁ => Gives.expect h₁ fun _ hend => Gives.done hend
  rw [sliceFrom, Gives, discard_bind, bind_of_ok _ (pop_eq hrest)]
  cases high with
  | none =>
    refine Gives.atText (Stream.Ahead.nextWord? hahead) ?_
    rw [pure_bind]
    exact hend hahead
  | some e =>
    obtain ⟨s₁, he, hclose⟩ := Stream.Ahead.split hahead
    refine Gives.not_atText (nextWord?_ne_closer hhigh he (by decide)) ?_
    rw [bind_map_left]
    exact .seq (ih.closed hhigh he hclose (by decide)) fun _ => hend hclose

theorem bracket_succ {a : Accessor} {ws : List Text} (ha : a.WellFormed)
    (hws : a.words = ("[" : Text) :: ws) (h : r.stream.Ahead ws s') : Gives (bracketIn (b + 1)) r a s' := by
  rw [bracketIn_succ]
  cases a with
  | whole =>
    obtain ⟨-, rfl⟩ := cons.inj hws
    exact .accept h fun _ hend => .done hend
  | index position =>
    obtain ⟨-, rfl⟩ := cons.inj hws
    obtain ⟨s₁, hposition, hclose⟩ := h.split
    refine .not_accept (nextWord?_ne_closer ha hposition (by decide))
      (.not_atText (nextWord?_ne_closer ha hposition (by decide)) ?_)
    refine .seq (ih.closed ha hposition hclose (by decide)) fun helpers => ?_
    have hcolon : s₁.nextWord? ≠ some (":" : Text) := by
      rw [hclose.nextWord?]
      decide
    rw [Gives, bind_of_ok _ (atText_word _ ⟨s₁, helpers⟩), decide_eq_false hcolon, if_pos (by decide)]
    exact Gives.expect hclose fun _ hend => Gives.done hend
  | slice low high =>
    rw [Accessor.words, bracketWords, List.cons.injEq, append_assoc, cons_append] at hws
    obtain ⟨-, rfl⟩ := hws
    cases low with
    | none =>
      have hcolon : r.stream.nextWord? = some (":" : Text) := h.nextWord?
      refine .not_accept (by rw [hcolon]; decide) (.atText hcolon ?_)
      exact ih.sliceFrom_gives none ha.2 h
    | some e =>
      obtain ⟨s₁, he, hcolon⟩ := h.split
      refine .not_accept (nextWord?_ne_closer ha.1 he (by decide))
        (.not_atText (nextWord?_ne_closer ha.1 he (by decide)) ?_)
      refine .seq (ih.closed ha.1 he hcolon (by decide)) fun helpers => ?_
      rw [Gives, bind_of_ok _ (atText_word _ ⟨s₁, helpers⟩), decide_eq_true hcolon.nextWord?, if_neg (by decide)]
      exact ih.sliceFrom_gives (some e) ha.2 hcolon
  | member name | call arguments | instantiate argument | instantiateAll arguments =>
    exact absurd (cons.inj hws).1 (by decide)

theorem arguments_succ {es : List Expr} (hes : Expr.AllWellFormed es)
    (h : r.stream.Ahead (parenWords (commaWords (Expr.wordLists es))) s') : Gives (argumentsIn (b + 1)) r es s' := by
  refine .expect h fun r₁ hahead => ?_
  cases es with
  | nil => exact .accept hahead fun _ hend => .done hend
  | cons e es =>
    refine .not_accept ?_ ?_
    · obtain ⟨w, ws, hws, hw⟩ := e.words_eq_cons hes.1
      rw [Expr.wordLists, hws] at hahead
      exact hahead.list_ne_closer hw (by decide)
    · rw [Expr.wordLists_eq] at hahead
      refine listTo_gives b (by decide) (cons_ne_nil e es) (fun e he r s' h hnext => ?_) hahead
      refine ih.expression (Expr.allWellFormed_iff.mp hes e he) h ?_
      rcases hnext with hnext | hnext <;> exact Stream.Ends.expr_of_closer e hnext (by decide)

theorem templateArgument_succ : Recovers (templateArgumentIn (b + 1)) TemplateArgument.words
    TemplateArgument.WellFormed TemplateArgument.takes := by
  intro a r s' ha h hends
  cases a with
  | type type =>
    obtain ⟨w, ws, hws, hw⟩ := type.words_eq_cons ha
    rw [TemplateArgument.words, hws] at h
    refine .next _ h fun t r₁ hraw htext hahead => ?_
    dsimp only
    rw [if_pos (by rw [category_eq hraw, htext]; exact hw)]
    exact (ih.typeFrom ha hraw (by rw [hws, htext]) hahead hends).map
  | word text =>
    refine .next _ h fun t r₁ hraw htext hahead => ?_
    dsimp only
    have hcategory : t.category.isArgumentWord := by
      rw [category_eq hraw, htext]
      exact ha
    have htype : ¬ t.category.isTypeName := by
      revert hcategory
      cases t.category <;> decide
    rw [if_neg htype, ← Category.isArgumentWord, if_pos hcategory, htext]
    exact .done hahead

theorem typeFrom_succ :
    RecoversFrom (typeFromIn (b + 1)) TypeExpr.words TypeExpr.WellFormed TypeExpr.takes := by
  intro type t ws r s' htype hraw hws h hends
  rw [typeFromIn]
  have hname : t.category.isTypeName := by
    obtain ⟨w, vs, hvs, hw⟩ := type.words_eq_cons htype
    rw [hws] at hvs
    rw [category_eq hraw, (cons.inj hvs).1]
    exact hw
  rw [if_neg (by rw [hname]; decide)]
  -- Whatever the type is, it takes a bracket that is behind it.
  have hbracket : s'.nextWord? ≠ some ("[" : Text) := by
    intro hnext
    have := hends _ hnext
    cases type <;> cases this
  cases type with
  | plain name dimensions =>
    obtain ⟨rfl, rfl⟩ := cons.inj hws
    refine .not_accept ?_ (ih.dimensionGroups b htype.2 h hbracket).map
    cases dimensions with
    | nil =>
      obtain rfl := Stream.Ahead.eq_of_nil h
      intro hbang
      cases hends _ hbang
    | cons sizes groups => rw [Stream.Ahead.nextWord? h]; decide
  | applied name argument dimensions =>
    obtain ⟨rfl, rfl⟩ := cons.inj hws
    refine .accept h fun r₁ hahead => ?_
    obtain ⟨s₁, hargument, hgroups⟩ := Stream.Ahead.split hahead
    refine .not_accept (nextWord?_ne_paren htype.2.1 hargument) ?_
    refine .seq (ih.templateArgument htype.2.1 hargument fun w hw => ?_)
      fun _ => (ih.dimensionGroups b htype.2.2.2 hgroups hbracket).map
    cases dimensions with
    | nil =>
      obtain rfl := Stream.Ahead.eq_of_nil hgroups
      exact (Bool.or_eq_false_iff.mp (hends w hw)).2
    | cons sizes groups =>
      rw [Stream.Ahead.nextWord? hgroups] at hw
      cases hw
      exact htype.2.2.1.resolve_left (cons_ne_nil _ _)
  | appliedAll name arguments dimensions =>
    rw [TypeExpr.words, parenWords, List.cons.injEq, cons_append] at hws
    obtain ⟨rfl, rfl⟩ := hws
    refine .accept h fun r₁ hahead => .accept hahead fun r₂ hrest => ?_
    obtain ⟨s₁, hargs, hgroups⟩ := hrest.split
    exact .seq (ih.templateArguments b htype.2.1 htype.2.2.1 hargs)
      fun _ => (ih.dimensionGroups b htype.2.2.2 hgroups hbracket).map

def dimensionTail : List (Option Expr) → List Text
  | [] => ["]"]
  | sizes => "," :: (commaWords (Expr.sizeWords sizes) ++ [("]" : Text)])

omit ih in
theorem sizeWords_eq (size : Option Expr) (sizes : List (Option Expr)) :
    commaWords (Expr.sizeWords (size :: sizes)) ++ [("]" : Text)]
      = Expr.optionalWords size ++ dimensionTail sizes := by
  cases sizes with
  | nil => rfl
  | cons size' sizes =>
    rw [Expr.sizeWords, commaWords_cons _ (by rw [Expr.sizeWords]; exact cons_ne_nil _ _),
      append_assoc, dimensionTail]
    · rfl
    · exact cons_ne_nil _ _

theorem dimensionsFrom_gives (size : Option Expr) {sizes : List (Option Expr)}
    (hok : Expr.SizesWellFormed sizes) (h : r.stream.Ahead (dimensionTail sizes) s') :
    Gives (dimensionsFrom (dimensionListIn b) size) r (size :: sizes) s' := by
  cases sizes with
  | nil => exact .accept h fun _ hend => .done hend
  | cons size' sizes =>
    have hcomma : r.stream.nextWord? = some ("," : Text) := Stream.Ahead.nextWord? h
    refine .not_accept (by rw [hcomma]; decide) (.accept h fun r₁ hahead => ?_)
    exact (ih.dimensionList (cons_ne_nil _ _) hok hahead).map

theorem dimensionList_succ {sizes : List (Option Expr)} (hne : sizes ≠ [])
    (hok : Expr.SizesWellFormed sizes)
    (h : r.stream.Ahead (commaWords (Expr.sizeWords sizes) ++ [("]" : Text)]) s') :
    Gives (dimensionListIn (b + 1)) r sizes s' := by
  obtain ⟨size, sizes, rfl⟩ := exists_cons_of_ne_nil hne
  rw [sizeWords_eq] at h
  have htail : ∀ s : Stream, s.Ahead (dimensionTail sizes) s' →
      s.nextWord? = some ("]" : Text) ∨ s.nextWord? = some ("," : Text) := by
    intro s hs
    cases sizes with
    | nil => exact .inl (Stream.Ahead.nextWord? hs)
    | cons size' sizes => exact .inr (Stream.Ahead.nextWord? hs)
  rw [dimensionListIn_succ, Gives, bind_of_ok _ (atText_word _ r), bind_of_ok _ (atText_word _ r)]
  cases size with
  | none =>
    rw [if_pos (by rcases htail r.stream h with hw | hw <;> rw [hw] <;> decide)]
    exact ih.dimensionsFrom_gives none hok.2 h
  | some e =>
    obtain ⟨s₁, he, hrest⟩ := h.split
    rw [decide_eq_false (nextWord?_ne_closer hok.1 he (by decide)),
      decide_eq_false (nextWord?_ne_closer hok.1 he (by decide)), if_neg (by decide)]
    refine Gives.seq (ih.expression hok.1 he ?_) fun _ => ih.dimensionsFrom_gives (some e) hok.2 hrest
    rcases htail s₁ hrest with hw | hw <;> exact Stream.Ends.expr_of_closer e hw (by decide)

end ExprComplete

/-- All parsers of expressions and types are complete, by induction on the budget. -/
theorem exprComplete (b : Nat) : ExprComplete b := by
  induction b with
  | zero => constructor <;> intro <;> intros <;> exact .overBudget
  | succ b ih =>
    exact {
      expression := ih.expression_succ
      expressionFrom := ih.expressionFrom_succ
      operand := ih.operand_succ
      element := ih.element_succ
      accessor? := ih.accessor?_succ
      accessor?_none := ExprComplete.accessor?_none_succ
      bracket := ih.bracket_succ
      arguments := ih.arguments_succ
      templateArgument := ih.templateArgument_succ
      typeFrom := ih.typeFrom_succ
      dimensions? := fun hne hok h => .accept h fun _ hahead => (ih.dimensionList hne hok hahead).map
      dimensions?_none := fun h => .not_accept h (.pure _ _)
      dimensionList := ih.dimensionList_succ }

/-! ## The grammar of expressions -/

theorem Gives.bounded {p : Nat → Parse α} (h : ∀ n, Gives (p n) r a s') : Gives (Parse.bounded p) r a s' :=
  h (8 * (r.stream.remaining + 1))

/-- No operator comes right behind an expression. -/
theorem ends_of_expression {n : Nat} {e : Expr} {r' : Reader} (hr : r.Clear) (h : expressionIn n r = .ok e r') :
    r'.Ends joinsOperands :=
  ((exprSound n).expression r hr e r' h).ends.mono fun _ hw => e.extendedBy_of_joinsOperands hw

/-- Puts operand after operand behind what was read, as long as operators come. -/
def operatorsIn (budget : Nat) : Nat → Text → Parse Text
  | 0, _ => stopOverBudget
  | rounds + 1, left => do
    match ← binaryOp? with
    | none => return left
    | some op =>
      let right ← expressionIn budget
      if let some h := op.helper? then require h
      operatorsIn budget rounds (op.code left right.code)

/-- A loop over operators reads an expression too: the operand behind the first operator takes all
the others, and the second round finds none. -/
theorem expressionFromIn_eq_operatorsIn {t : Token} (budget rounds : Nat) (hr : r.Behind t) :
    (Expr.code <$> expressionFromIn (budget + 1) t) r =
      (operandIn budget t >>= fun left => operatorsIn budget (rounds + 2) left.code) r := by
  rw [← bind_pure_comp, expressionFromIn, bind_assoc]
  rcases hleft : operandIn budget t r with ⟨left, r₁⟩ | ⟨e, r₁⟩
  · obtain ⟨-, _, -, hparsed⟩ := (exprSound budget).operand t r hr left r₁ hleft
    rw [bind_of_ok _ hleft, bind_of_ok _ hleft, bind_assoc, operatorsIn]
    rcases hop : binaryOp? r₁ with ⟨_ | op, r₂⟩ | ⟨e, r₂⟩
    · rw [bind_of_ok _ hop, bind_of_ok _ hop]
      rfl
    · obtain ⟨-, -, hr₂⟩ : _ ∧ _ ∧ r₂.Clear := binaryOp?_ensures hparsed.clear _ _ hop
      rw [bind_of_ok _ hop, bind_of_ok _ hop]
      dsimp only
      rw [bind_assoc]
      rcases hright : expressionIn budget r₂ with ⟨right, r₃⟩ | ⟨e, r₃⟩
      · have hends : r₃.stream.Ends joinsOperands := ends_of_expression hr₂ hright
        -- Recording a helper in between moves no token.
        have hdone : ∀ r₄ : Reader, r₄.stream = r₃.stream → operatorsIn budget (rounds + 1)
            (op.code left.code right.code) r₄ = .ok (op.code left.code right.code) r₄ := by
          rintro ⟨stream, helpers⟩ rfl
          rw [operatorsIn, bind_of_ok _ (binaryOp?_of_ends (r := ⟨r₃.stream, helpers⟩) hends)]
          rfl
        rw [bind_of_ok _ hright, bind_of_ok _ hright]
        cases op.helper? with
        | none => exact (hdone r₃ rfl).symm
        | some h => exact (hdone { r₃ with helpers := r₃.helpers.require h } rfl).symm
      · rw [bind_of_error _ hright, bind_of_error _ hright]
    · rw [bind_of_error _ hop, bind_of_error _ hop]
  · rw [bind_of_error _ hleft, bind_of_error _ hleft]

/-- An expression is read off its words, with the budget it is given. -/
theorem expression_gives {e : Expr} (he : e.WellFormed) (h : r.stream.Ahead e.words s')
    (hends : s'.Ends e.extendedBy) : ∃ helpers, expression r = .ok e ⟨s', helpers⟩ :=
  (Gives.bounded fun n => (exprComplete n).expression he h hends).ok_of_safe (expression_safe r)

/-- **Expressions are read by their grammar, and translated by their trees.** What is read without
raw tokens are the words of a well-formed tree, the result is the code of that tree, and the next
word does not go on with it; in particular it is no operator. Conversely each well-formed tree is
read off its words, whatever comes behind them that does not go on with it. -/
theorem expression_reads_trees : (∀ (r r' : Reader) (code : Text), (∀ t ∈ r.stream.rest, t.raw = false) →
      (Expr.code <$> expression) r = .ok code r' →
      ∃ (e : Expr) (ts : List Token), r.stream.Reads ts r'.stream ∧ ts.map Token.text = e.words ∧
        e.WellFormed ∧ code = e.code ∧ r'.stream.Ends e.extendedBy ∧
        r'.stream.Ends joinsOperands) ∧
    (∀ (e : Expr) (ts : List Token) (r : Reader) (s' : Stream), e.WellFormed →
      ts.map Token.text = e.words → (∀ t ∈ ts, t.raw = false) → r.stream.Reads ts s' →
      s'.Ends e.extendedBy →
      ∃ helpers, (Expr.code <$> expression) r = .ok e.code ⟨s', helpers⟩) := by
  constructor
  · intro r r' code hraw hm
    rw [← bind_pure_comp] at hm
    obtain ⟨e, r₁, he, hm⟩ := bind_ok hm
    cases hm
    have hparsed := (exprSound _).expression r (Reader.clear_of_no_raw hraw) e r' he
    obtain ⟨ts, hts, hwords, -⟩ := hparsed.spells.code
    refine ⟨e, ts, hts, hwords, hparsed.ok, rfl, hparsed.ends, ?_⟩
    exact hparsed.ends.mono fun w hw => e.extendedBy_of_joinsOperands hw
  · intro e ts r s' he hwords hraw hreads hends
    obtain ⟨helpers, hm⟩ := expression_gives he ⟨ts, hreads, hwords, hraw⟩ hends
    refine ⟨helpers, ?_⟩
    rw [← bind_pure_comp, bind_of_ok _ hm]
    rfl

/-- `x in a[1:]` in parentheses, from behind the opening one. -/
theorem expression_reads_trees_slice :
    ∃ r', (Expr.code <$> expression) ⟨Stream.ofWords ["x", "in", "a", "[", "1", ":", "]", ")"], {}⟩
        = .ok "contains(a[1 .. $], x)" r' ∧
      ∃ (e : Expr) (ts : List Token), ts.map Token.text = e.words ∧
        e.code = "contains(a[1 .. $], x)" ∧ r'.stream.nextWord? = some (")" : Text) := by
  obtain ⟨helpers, hm⟩ := expression_reads_trees.2
    (.binary (.atom "x" []) (.compare false .member)
      (.single (.atom "a" [.slice (some (.single (.atom "1" []))) none])))
    (Stream.tokensOfWords 1 0 ["x", "in", "a", "[", "1", ":", "]"])
    ⟨Stream.ofWords ["x", "in", "a", "[", "1", ":", "]", ")"], {}⟩
    ⟨(Stream.tokensOfWords 1 0 ["x", "in", "a", "[", "1", ":", "]"]).reverse, Stream.tokensOfWords 1 0 [")"]⟩
    ⟨⟨by decide +kernel, trivial, trivial⟩, trivial, by decide +kernel,
      ⟨⟨⟨by decide +kernel, trivial, trivial⟩, trivial⟩, trivial⟩, ⟨fun _ h => (nomatch h), trivial⟩⟩
    rfl (by decide) ⟨rfl, rfl⟩ (Stream.Ends.expr_of_closer _ rfl (by decide))
  obtain ⟨e, ts, -, hwords, -, hcode, -, -⟩ := expression_reads_trees.1 _ _ _ (by decide) hm
  exact ⟨_, hm, e, ts, hwords, hcode.symm, rfl⟩

end Parse

end Offside
