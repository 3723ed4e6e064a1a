/-
Parsers of expressions and types read what their result spells.

`ExprSound b` collects, for the functions that call each other with budget `b`, that the words read
are those of the tree, that the tree is well-formed, and that the word ahead does not go on with it.
-/
import Offside.Proofs.Parse.Spelling
import Offside.Proofs.Parts

set_option autoImplicit false

namespace Offside

open List Token Category Text TemplateArgument Accessor

/-! ## What was read -/

variable {t : Token}

namespace Reader

/-- `r'` is `r` after these words were read, which are well-formed, and none that goes on with them
is next. -/
structure Parsed (r : Reader) (words : List Text) (ok : Prop) (goesOn : Text → Bool) (r' : Reader) :
    Prop where
  spells : r.Spells words r'
  ok : ok
  clear : r'.Clear
  ends : r'.Ends goesOn

def ParsedFrom (r : Reader) (t : Token) (words : List Text) (ok : Prop) (goesOn : Text → Bool)
    (r' : Reader) : Prop :=
  (t.IsCode ∧ Quiet t.text) ∧ ∃ ws, words = t.text :: ws ∧ r.Parsed ws ok goesOn r'

variable {r r₁ r₂ r' : Reader} {words words' : List Text} {ok ok' : Prop} {f g : Text → Bool}

theorem Ends.never (r : Reader) : r.Ends fun _ => false := fun _ _ => rfl

/-- What was parsed behind a token was parsed with it. -/
theorem ParsedFrom.after (h : r₁.ParsedFrom t words ok f r') (hread : r.Reads [t] r₁) : r.Parsed words ok f r' := by
  obtain ⟨⟨ht, hquiet⟩, ws, rfl, hparsed⟩ := h
  exact { hparsed with spells := (Spells.one hread ht hquiet).trans hparsed.spells }

/-- Words read before come first. -/
theorem Parsed.prepend (h : r₁.Parsed words ok f r') (h₁ : r.Spells words' r₁) : r.Parsed (words' ++ words) ok f r' :=
  { h with spells := h₁.trans h.spells }

theorem Parsed.imp (h : r.Parsed words ok f r') (hok : ok → ok') : r.Parsed words ok' f r' :=
  { h with ok := hok h.ok }

theorem Parsed.weaken (h : r.Parsed words ok f r') (hok : ok → ok')
    (hgf : ∀ w, g w → f w) : r.Parsed words ok' g r' :=
  { h.imp hok with ends := h.ends.mono hgf }

end Reader

variable {r : Reader}

namespace Parse

open Reader (Clear Behind Parsed ParsedFrom Ends Spells Takes)

/-! ## Operators and the start of an operand -/

theorem isCode_of_isBinary (hraw : t.raw = false) (h : t.category.isBinary) : t.IsCode := by
  refine isCode_of_category hraw ?_ ?_ <;> revert h <;> cases t.category <;> decide

theorem operatorAt_ensures {rest : List Token} (hr : r.Clear) (hrest : r.stream.rest = t :: rest) :
    Ensures (operatorAt t) r fun o r' =>
      match o with
      | none => r' = r ∧ (ofText t.text).isBinary = false
      | some op => r.Takes op.words r' ∧ op.WellFormed ∧ r'.Clear := by
  have hraw : t.raw = false := hr.next t (by rw [hrest]; rfl)
  have hpop : (ofText t.text).isBinary →
      Ensures (discard pop) r fun _ r' => r.Takes [t.text] r' ∧ r'.Clear := by
    intro hbinary
    rw [← category_eq hraw] at hbinary
    have hcode := isCode_of_isBinary hraw hbinary
    refine (Ensures.discard (pop_reads hrest)).mono ?_
    rintro _ r' ⟨_, rfl, hread⟩
    exact ⟨Takes.one hread hcode, (hr.behind hread).clear hcode⟩
  rw [operatorAt, lexeme_eq hraw]
  rw [ofText] at hpop ⊢
  cases hk : Lexeme.ofText t.text with
  | shape s => exact .pure ⟨rfl, by cases s <;> rfl⟩
  | plain => exact .pure ⟨rfl, rfl⟩
  | keyword k =>
    rw [hk] at hpop
    cases k with
    | operator =>
      refine .seq (hpop rfl) fun _ r₁ h₁ => ?_
      exact .pure ⟨h₁.1, hk, h₁.2⟩
    | comparator c =>
      refine .seq (hpop rfl) fun _ r₁ h₁ => ?_
      rw [Lexeme.ofText_eq_comparator_iff.mp hk] at h₁
      exact .pure ⟨h₁.1, trivial, h₁.2⟩
    | logical w =>
      cases w with
      | and | or =>
        refine .seq (hpop rfl) fun _ r₁ h₁ => ?_
        rw [Lexeme.ofText_eq_logical_iff.mp hk] at h₁
        exact .pure ⟨h₁.1, trivial, h₁.2⟩
      | not =>
        -- Only a comparator may follow.
        refine .seq (hpop rfl) fun _ r₁ h₁ => ?_
        rw [Lexeme.ofText_eq_logical_iff.mp hk] at h₁
        refine .seq (next_ensures _ h₁.2) ?_
        rintro u r₂ ⟨hread, hbehind⟩
        cases hu : u.lexeme with
        | shape s | plain => exact .throw
        | keyword k =>
          cases k with
          | comparator c =>
            have hcode := isCode_of_isBinary hbehind.raw (by rw [Token.category, hu]; rfl)
            have h₂ := Takes.one hread hcode
            rw [lexeme_eq hbehind.raw, Lexeme.ofText_eq_comparator_iff] at hu
            rw [hu] at h₂
            exact .pure ⟨h₁.1.trans h₂, trivial, hbehind.clear hcode⟩
          | _ => exact .throw
    | marker m => exact .pure ⟨rfl, by cases m <;> rfl⟩
    | _ => exact .pure ⟨rfl, rfl⟩

/-- An operator is read, or no operator is ahead. -/
theorem binaryOp?_ensures (hr : r.Clear) : Ensures binaryOp? r fun o r' =>
      match o with
      | none => r' = r ∧ r.Ends joinsOperands
      | some op => r.Takes op.words r' ∧ op.WellFormed ∧ r'.Clear := by
  rw [binaryOp?_eq]
  refine accept_takes (by rfl) hr (fun r₁ hr₁ h₁ => .pure ⟨h₁, trivial, hr₁⟩) fun hrange => ?_
  intro o r' hm
  rw [bind_of_ok _ (peek?_eq r)] at hm
  cases hrest : r.stream.rest with
  | nil =>
    rw [hrest] at hm
    cases hm
    refine ⟨rfl, fun w hw => ?_⟩
    rw [Stream.nextWord?, hrest] at hw
    cases hw
  | cons t rest =>
    rw [hrest] at hm
    have h := operatorAt_ensures hr hrest o r' hm
    cases o with
    | some op => exact h
    | none =>
      obtain ⟨rfl, hbinary⟩ := h
      refine ⟨rfl, fun w hw => ?_⟩
      have hnext := Stream.nextWord?_cons hrest (hr.next t (by rw [hrest]; rfl))
      rw [hnext, Option.mem_some_iff] at hw
      subst hw
      rw [joinsOperands, hbinary, Bool.or_false, decide_eq_false_iff_not]
      intro hw
      exact hrange (hnext.trans (congrArg some hw))

def OperandStart.Fits : OperandStart → Text → Prop
  | minus, word => word = "-"
  | negation, word => word = "not"
  | group, word => word = "("
  | array, word => word = "["
  | new, word => word = "new"
  | atom, word => (Lexeme.ofText word).isAtom = true

variable {start : OperandStart}

/-- The kind of an operand is told by its first word. -/
theorem operandStart?_eq_some_iff (hraw : t.raw = false) : operandStart? t = some start ↔ start.Fits t.text := by
  have hminus : Lexeme.ofText "-" = .keyword .operator := by decide +kernel
  constructor
  · intro h
    rw [operandStart?, lexeme_eq hraw] at h
    cases hk : Lexeme.ofText t.text with
    | plain =>
      rw [hk, hraw] at h
      cases h
      rw [OperandStart.Fits, hk]
      rfl
    | shape s =>
      rw [hk] at h
      cases s with
      | punctuation =>
        dsimp only at h
        split at h
        · next hw => cases h; exact hw
        · split at h
          · next hw => cases h; exact hw
          · cases h
      | _ => cases h; rw [OperandStart.Fits, hk]; rfl
    | keyword k =>
      rw [hk] at h
      cases k with
      | operator =>
        dsimp only at h
        split at h
        · next hw => cases h; exact hw
        · cases h
      | logical w =>
        cases w with
        | not => cases h; exact Lexeme.ofText_eq_logical_iff.mp hk
        | _ => cases h
      | constructorWord w =>
        cases w with
        | newWord => cases h; exact Lexeme.ofText_eq_new_iff.mp hk
        | _ => cases h; rw [OperandStart.Fits, hk]; rfl
      | typeWord => cases h; rw [OperandStart.Fits, hk]; rfl
      | _ => cases h
  · intro h
    rw [operandStart?, lexeme_eq hraw]
    cases start with
    | minus => rw [OperandStart.Fits] at h; rw [h, hminus]; rfl
    | negation => rw [Lexeme.ofText_eq_logical_iff (w := .not).mpr h]
    | group | array => rw [OperandStart.Fits] at h; rw [h, Lexeme.ofText_sign (by decide)]; rfl
    | new => rw [OperandStart.Fits] at h; rw [h, Lexeme.ofText_eq_new_iff.mpr rfl]
    | atom =>
      rw [OperandStart.Fits] at h
      cases hk : Lexeme.ofText t.text with
      | plain => rw [hraw]; rfl
      | shape s =>
        rw [hk] at h
        cases s with
        | punctuation => cases h
        | _ => rfl
      | keyword k =>
        rw [hk] at h
        cases k with
        | constructorWord w =>
          cases w with
          | newWord => cases h
          | _ => rfl
        | typeWord => rfl
        | _ => cases h

theorem isCode_of_fits (hraw : t.raw = false) (h : start.Fits t.text) : t.IsCode := by
  cases start with
  | atom =>
    rw [OperandStart.Fits] at h
    cases hk : Lexeme.ofText t.text with
    | plain => exact isCode_of_lexeme hraw ((lexeme_eq hraw).trans hk) rfl (by decide)
    | shape s =>
      rw [hk] at h
      refine isCode_of_lexeme hraw ((lexeme_eq hraw).trans hk) ?_ ?_ <;>
        revert h <;> cases s <;> decide
    | keyword k =>
      rw [hk] at h
      refine isCode_of_lexeme hraw ((lexeme_eq hraw).trans hk) ?_ ?_ <;>
        revert h <;> cases k with
        | marker m => cases m <;> decide
        | typeWord => decide
        | constructorWord w => cases w <;> decide
        | _ => exact fun h => nomatch h
  | _ =>
    rw [OperandStart.Fits] at h
    exact isCode_of_is (Token.is_iff.mpr ⟨hraw, h⟩) (by rfl)

theorem quiet_of_fits {word : Text} (h : start.Fits word) : Quiet word := by
  cases start with
  | atom => exact quiet_of_isInert (isInert_of_isAtom h)
  | _ =>
    rw [OperandStart.Fits] at h
    rw [h]
    decide

/-! ## Expressions and types -/

variable {α : Type}

/-- What is given was read. -/
def Sound (p : Parse α) (words : α → List Text) (WellFormed : α → Prop) (goesOn : α → Text → Bool) : Prop :=
  ∀ r : Reader, r.Clear → Ensures p r fun a r' => r.Parsed (words a) (WellFormed a) (goesOn a) r'

/-- The same from behind the first token. -/
def SoundFrom (p : Token → Parse α) (words : α → List Text) (WellFormed : α → Prop) (goesOn : α → Text → Bool) : Prop :=
  ∀ t (r : Reader), r.Behind t → Ensures (p t) r fun a r' => r.ParsedFrom t (words a) (WellFormed a) (goesOn a) r'

/-- The same of what is only there behind certain words. -/
def SoundIf (starts : Text → Bool) (p : Parse (Option α)) (words : α → List Text) (WellFormed : α → Prop)
    (goesOn : α → Text → Bool) : Prop :=
  ∀ r : Reader, r.Clear → Ensures p r fun o r' => match o with
    | none => r' = r ∧ r.Ends starts
    | some a => r.Parsed (words a) (WellFormed a) (goesOn a) r'

theorem Sound.yields {p : Parse α} {words : α → List Text} {WellFormed : α → Prop} {goesOn : α → Text → Bool}
    (h : Sound p words WellFormed goesOn) : Yields p words WellFormed :=
  fun r hr => (h r hr).mono fun _ _ h => ⟨h.spells, h.ok, h.clear⟩

/-- What is repeated is sound if one round is. -/
theorem SoundIf.many {starts : Text → Bool} {p : Parse (Option α)} {words : α → List Text} {WellFormed : α → Prop}
    {goesOn : α → Text → Bool} {all : List α → List Text} {AllWellFormed : List α → Prop}
    (h : SoundIf starts p words WellFormed goesOn) (n : Nat) (hok : AllWellFormed []) (hnil : all [] = [])
    (hcons : ∀ {a as} {r r₁ r₂ : Reader}, r.Parsed (words a) (WellFormed a) (goesOn a) r₁ →
      r₁.Parsed (all as) (AllWellFormed as) starts r₂ → AllWellFormed (a :: as))
    (hall : ∀ a as, all (a :: as) = words a ++ all as) : Sound (many p n) all AllWellFormed fun _ => starts := by
  refine fun r hr => many_ensures (V := fun a r r' => r.Parsed (words a) (WellFormed a) (goesOn a) r')
    (W := fun as r r' => r.Parsed (all as) (AllWellFormed as) starts r') ?_ ?_ n hr
  · intro r hr
    refine (h r hr).mono ?_
    rintro (_ | a) r₁ h₁
    · obtain ⟨rfl, hends⟩ := h₁
      exact ⟨by rw [hnil]; exact Spells.refl r₁, hok, hr, hends⟩
    · exact ⟨h₁, Parsed.clear h₁⟩
  · intro a as r r₁ r₂ ha has
    rw [hall]
    exact (has.prepend ha.spells).imp fun _ => hcons ha has

/-- What the parsers of expressions and types have read when they give a result with budget `b`. -/
structure ExprSound (b : Nat) : Prop where
  expression : Sound (expressionIn b) Expr.words Expr.WellFormed Expr.extendedBy
  expressionFrom : SoundFrom (expressionFromIn b) Expr.words Expr.WellFormed Expr.extendedBy
  operand : SoundFrom (operandIn b) Operand.words Operand.WellFormed Operand.extendedBy
  element : Sound (elementIn b) Element.words Element.WellFormed fun _ _ => false
  accessor? : SoundIf startsAccessor (accessorIn? b) Accessor.words Accessor.WellFormed Accessor.takes
  bracket : ∀ r : Reader, r.Clear → Ensures (bracketIn b) r fun a r' =>
    ∃ ws, a.words = ("[" : Text) :: ws ∧ r.Parsed ws a.WellFormed (fun _ => false) r' ∧ ∀ w, a.takes w = false
  arguments : Sound (argumentsIn b) (fun es => parenWords (commaWords (Expr.wordLists es))) Expr.AllWellFormed
    fun _ _ => false
  templateArgument : Sound (templateArgumentIn b) TemplateArgument.words TemplateArgument.WellFormed
    TemplateArgument.takes
  typeFrom : SoundFrom (typeFromIn b) TypeExpr.words TypeExpr.WellFormed TypeExpr.takes
  dimensions? : SoundIf (fun w => w = "[") (dimensionsIn? b)
    (fun sizes => bracketWords (commaWords (Expr.sizeWords sizes)))
    (fun sizes => sizes ≠ [] ∧ Expr.SizesWellFormed sizes) fun _ _ => false
  dimensionList : Sound (dimensionListIn b) (fun sizes => commaWords (Expr.sizeWords sizes) ++ [("]" : Text)])
    (fun sizes => sizes ≠ [] ∧ Expr.SizesWellFormed sizes) fun _ _ => false

namespace ExprSound

variable {b : Nat} {r : Reader} {t : Token} (ih : ExprSound b)
include ih

/-- One more level of recursion, for each parser. -/
theorem expression_succ :
    Sound (expressionIn (b + 1)) Expr.words Expr.WellFormed Expr.extendedBy := by
  intro r hr
  refine .seq (next_ensures _ hr) ?_
  rintro t r₁ ⟨hread, hbehind⟩
  exact (ih.expressionFrom t r₁ hbehind).mono fun e r₂ h => h.after hread

theorem expressionFrom_succ :
    SoundFrom (expressionFromIn (b + 1)) Expr.words Expr.WellFormed Expr.extendedBy := by
  intro t r hr
  refine .seq (ih.operand t r hr) ?_
  rintro left r₁ ⟨ht, ws, hws, hleft⟩
  refine .seq (binaryOp?_ensures hleft.clear) ?_
  rintro (_ | op) r₂ h₂
  · obtain ⟨rfl, hends⟩ := h₂
    refine .pure ⟨ht, ws, hws, { hleft with ends := fun w hw => ?_ }⟩
    rw [Expr.extendedBy, hleft.ends w hw, hends w hw]
    rfl
  · obtain ⟨htakes, hop, hr₂⟩ : r₁.Takes op.words r₂ ∧ op.WellFormed ∧ r₂.Clear := h₂
    refine .seq (ih.expression r₂ hr₂) ?_
    intro right r₃ hright
    -- Recording the helper of the operator moves no token.
    have hall : ∀ r₄ : Reader, r₄.stream = r₃.stream →
        r₃.helpers.Records (fun x => op.helper? = some x) r₄.helpers →
        r.ParsedFrom t (Expr.binary left op right).words (Expr.binary left op right).WellFormed
          (Expr.binary left op right).extendedBy r₄ := by
      rintro ⟨stream, helpers⟩ rfl hrecords
      refine ⟨ht, ws ++ (op.words ++ right.words), ?_, ⟨?_, ?_, ?_⟩, ⟨hleft.ok, hop, hright.ok⟩,
        ⟨hright.clear.next, hright.clear.chain⟩, hright.ends⟩
      · rw [Expr.words, hws, cons_append]
      · exact hleft.spells.code.trans (htakes.code.trans hright.spells.code)
      · exact getLast?_append_ne hleft.spells.whole
          (getLast?_append_ne (BinaryOp.words_getLast? hop) hright.spells.whole)
      · have hrecorded := (hleft.spells.helpers.trans (htakes.helpers ▸ hright.spells.helpers)).trans hrecords
        refine hrecorded.congr fun x => ?_
        rw [Helper.within_append hleft.spells.whole, Helper.within_append (BinaryOp.words_getLast? hop),
          BinaryOp.within_iff hop]
        tauto
    cases hhelper : op.helper? with
    | none => exact .pure (hall r₃ rfl (.of_none (by simp [hhelper]) rfl))
    | some h =>
      refine .seq (P := fun _ r₄ => r₄ = { r₃ with helpers := r₃.helpers.require h }) ?_ ?_
      · rintro _ _ ⟨⟩
        rfl
      · rintro _ _ rfl
        refine .pure (hall _ rfl ((Prelude.Records.one _ h).congr fun x => ?_))
        rw [hhelper, Option.some.injEq, eq_comm]

theorem accessors (n : Nat) : Sound (many (accessorIn? b) n) chainWords
    (fun as => Accessor.AllWellFormed as ∧ Separate as) fun _ => startsAccessor := by
  refine ih.accessor?.many n ⟨trivial, trivial⟩ rfl ?_ fun a as => rfl
  intro a as r r₁ r₂ ha has
  refine ⟨⟨ha.ok, has.ok.1⟩, fun next hnext => ha.ends next.firstWord ?_, has.ok.2⟩
  -- The chain goes on with the first word of the next accessor.
  cases as with
  | nil => cases hnext
  | cons a' as =>
    obtain rfl : a' = next := Option.some.inj hnext
    obtain ⟨ws, hws⟩ := a'.words_eq_cons
    have hspells := has.spells
    rw [chainWords, hws, cons_append] at hspells
    exact hspells.nextWord?

theorem dimensionGroups (n : Nat) : Sound (many (dimensionsIn? b) n) Expr.groupsWords
    Expr.GroupsWellFormed fun _ w => w = "[" :=
  ih.dimensions?.many n trivial rfl (fun hsizes hgroups => ⟨hsizes.ok.1, hsizes.ok.2, hgroups.ok⟩) fun _ _ => rfl

theorem templateArguments (n : Nat) (hr : r.Clear) :
    Ensures (listTo ")" (templateArgumentIn b) n) r fun as r' =>
      r.Parsed (commaWords (wordLists as) ++ [(")" : Text)])
        (as ≠ [] ∧ TemplateArgument.AllWellFormed as) (fun _ => false) r' := by
  refine (listTo_yields (by rfl) ih.templateArgument.yields n r hr).mono ?_
  rintro as r' ⟨hspells, ⟨hne, hok⟩, hr'⟩
  simp only [← wordLists_eq] at hspells
  exact ⟨hspells, ⟨hne, allWellFormed_iff.mpr hok⟩, hr', Ends.never r'⟩

theorem operand_succ :
    SoundFrom (operandIn (b + 1)) Operand.words Operand.WellFormed Operand.extendedBy := by
  intro t r hr
  rw [operandIn]
  cases hstart : operandStart? t with
  | none => exact .throw
  | some start =>
    have hfits := (operandStart?_eq_some_iff hr.raw).mp hstart
    have ht := isCode_of_fits hr.raw hfits
    have hfirst : t.IsCode ∧ Quiet t.text := ⟨ht, quiet_of_fits hfits⟩
    have hclear := hr.clear ht
    cases start with
    | minus | negation =>
      refine .seq (next_ensures _ hclear) ?_
      rintro u r₁ ⟨hread, hbehind⟩
      refine .seq (ih.operand u r₁ hbehind) ?_
      intro inner r₂ h₂
      refine .pure ⟨hfirst, inner.words, ?_, h₂.after hread⟩
      rw [Operand.words, hfits]
    | new =>
      refine .seq (next_ensures _ hclear) ?_
      rintro u r₁ ⟨hread, hbehind⟩
      refine .seq (ih.typeFrom u r₁ hbehind) ?_
      intro type r₂ h₂
      have htype := h₂.after hread
      refine atText_ensures (fun _ => ?_) fun hparen => ?_
      · refine .seq (ih.arguments r₂ htype.clear) ?_
        intro arguments r₃ h₃
        refine .pure ⟨hfirst, _, by rw [Operand.words, hfits], ?_⟩
        exact (h₃.prepend htype.spells).imp fun h => ⟨htype.ok, h⟩
      · -- Arguments would extend the operand, but no round bracket is next.
        refine .pure ⟨hfirst, _, by rw [Operand.words, hfits], { htype with ends := fun w hw => ?_ }⟩
        rw [Operand.extendedBy, htype.ends w hw, Bool.or_false, decide_eq_false_iff_not]
        rintro rfl
        exact hparen hw
    | group =>
      refine .seq (ih.expression r hclear) ?_
      intro inner r₁ h₁
      refine .seq (expect_ensures (by rfl) h₁.clear) ?_
      rintro _ r₂ ⟨h₂, hr₂⟩
      refine .seq (ih.accessors b r₂ hr₂) ?_
      intro as r₃ h₃
      refine .pure ⟨hfirst, inner.words ++ [(")" : Text)] ++ chainWords as, ?_, ?_⟩
      · rw [Operand.words, parenWords, hfits]
        rfl
      · exact (h₃.prepend (h₁.spells.trans h₂)).imp fun h => ⟨h₁.ok, h⟩
    | array =>
      have hclose : ∀ (elements : List Element) (r₁ : Reader), r₁.Clear →
          r.Spells (commaWords (Element.wordLists elements) ++ [("]" : Text)]) r₁ →
          Element.AllWellFormed elements → Ensures (do
            return Operand.array elements (← many (accessorIn? b) b)) r₁ fun o r' =>
              r.ParsedFrom t o.words o.WellFormed o.extendedBy r' := by
        intro elements r₁ hr₁ h₁ hok
        refine .seq (ih.accessors b r₁ hr₁) ?_
        intro as r₂ h₂
        refine .pure ⟨hfirst, commaWords (Element.wordLists elements) ++ [("]" : Text)] ++
          chainWords as, ?_, ?_⟩
        · rw [Operand.words, bracketWords, hfits]
          rfl
        · exact (h₂.prepend h₁).imp fun h => ⟨hok, h⟩
      refine accept_ensures (by rfl) hclear (fun r₁ hr₁ h₁ => hclose [] r₁ hr₁ h₁ trivial) fun _ => ?_
      refine .seq (listTo_yields (by rfl) ih.element.yields b r hclear) ?_
      rintro elements r₁ ⟨h₁, ⟨-, hok⟩, hr₁⟩
      simp only [← Element.wordLists_eq] at h₁
      exact hclose elements r₁ hr₁ h₁ (Element.allWellFormed_iff.mpr hok)
    | atom =>
      refine .seq (ih.accessors b r hclear) ?_
      intro as r₁ h₁
      refine .pure ⟨hfirst, _, by rw [Operand.words], ?_⟩
      exact h₁.imp fun h => ⟨hfits, h⟩

theorem element_succ :
    Sound (elementIn (b + 1)) Element.words Element.WellFormed fun _ _ => false := by
  intro r hr
  refine .seq (ih.expression r hr) ?_
  intro value r₁ h₁
  refine accept_ensures (by rfl) h₁.clear (fun r₂ hr₂ h₂ => ?_) fun _ => ?_
  · refine .seq (ih.expression r₂ hr₂) ?_
    intro value' r₃ h₃
    exact .pure (((h₃.prepend h₂).prepend h₁.spells).weaken (fun h => ⟨h₁.ok, h⟩)
      fun _ h => nomatch h)
  · exact .pure (h₁.weaken id fun _ h => nomatch h)

theorem accessor?_succ :
    SoundIf startsAccessor (accessorIn? (b + 1)) Accessor.words Accessor.WellFormed Accessor.takes := by
  intro r hr
  refine accept_takes (by rfl) hr (fun r₁ hr₁ h₁ => ?_) fun hdot => ?_
  · -- A member.
    refine .seq (next_ensures _ hr₁) ?_
    rintro name r₂ ⟨hread, hbehind⟩
    refine .guard fun hword => ?_
    rw [Bool.not_eq_true, Bool.not_eq_false'] at hword
    have hcode := isCode_of_isWord hword
    have h₂ := h₁.trans (Takes.one hread hcode)
    rw [Token.isWord, Bool.and_eq_true] at hword
    exact .pure ⟨h₂.spells_member hword.2, hword.2, hbehind.clear hcode, Ends.never r₂⟩
  refine accept_ensures (by rfl) hr (fun r₁ hr₁ h₁ => ?_) fun hbracket => ?_
  · -- An index or a slice.
    refine .seq (ih.bracket r₁ hr₁) ?_
    rintro a r₂ ⟨ws, hws, h₂, htakes⟩
    have h := h₂.prepend h₁
    rw [singleton_append, ← hws] at h
    exact .pure (h.weaken id fun w hw => by rw [htakes] at hw; cases hw)
  refine atText_ensures (fun _ => ?_) fun hparen => ?_
  · -- A call.
    refine .seq (ih.arguments r hr) ?_
    intro arguments r₁ h₁
    exact .pure h₁
  refine accept_ensures (by rfl) hr (fun r₁ hr₁ h₁ => ?_) fun hbang => ?_
  · -- Template arguments, a list of them or one.
    refine accept_ensures (by rfl) hr₁ (fun r₂ hr₂ h₂ => ?_) fun _ => ?_
    · refine .seq (ih.templateArguments b hr₂) ?_
      intro arguments r₃ h₃
      exact .pure ((h₃.prepend h₂).prepend h₁)
    · refine .seq (ih.templateArgument r₁ hr₁) ?_
      intro argument r₂ h₂
      exact .pure (h₂.prepend h₁)
  · refine .pure ⟨rfl, fun w hw => ?_⟩
    rw [Bool.eq_false_iff]
    intro h
    rw [startsAccessor, Bool.or_eq_true, Bool.or_eq_true, Bool.or_eq_true] at h
    rcases h with ((h | h) | h) | h <;> rw [of_decide_eq_true h] at hw
    · exact hdot hw
    · exact hbracket hw
    · exact hparen hw
    · exact hbang hw

theorem sliceFrom_ensures (low : Option Expr) (hr : r.Clear)
    (hnext : r.stream.nextWord? = some (":" : Text)) : Ensures (sliceFrom (expressionIn b) low) r fun a r' => ∃ high,
      a = .slice low high ∧ r.Parsed ((":" : Text) :: (Expr.optionalWords high ++ [("]" : Text)]))
        (Expr.OptionalWellFormed high) (fun _ => false) r' := by
  refine .seq (.discard (pop_ensures (by rfl) hr hnext)) ?_
  rintro _ r₁ ⟨-, -, h₁, hr₁⟩
  have hend : ∀ (high : Option Expr) (r₂ : Reader), r₁.Spells (Expr.optionalWords high) r₂ →
      Expr.OptionalWellFormed high → r₂.Clear → Ensures (do
        expect "]"
        return slice low high) r₂ fun a r' => ∃ high, a = .slice low high ∧
          r.Parsed ((":" : Text) :: (Expr.optionalWords high ++ [("]" : Text)]))
            (Expr.OptionalWellFormed high) (fun _ => false) r' := by
    intro high r₂ h₂ hok hr₂
    refine .seq (expect_ensures (by rfl) hr₂) ?_
    rintro _ r₃ ⟨h₃, hr₃⟩
    exact .pure ⟨high, rfl, h₁.trans (h₂.trans h₃), hok, hr₃, Ends.never r₃⟩
  dsimp only
  refine atText_ensures (fun _ => ?_) fun _ => ?_
  · rw [pure_bind]
    exact hend none r₁ (Spells.refl r₁) trivial hr₁
  · refine .seq_map (ih.expression r₁ hr₁) ?_
    intro e r₂ h₂
    exact hend (some e) r₂ h₂.spells h₂.ok h₂.clear

theorem bracket_succ (r : Reader) (hr : r.Clear) : Ensures (bracketIn (b + 1)) r fun a r' =>
      ∃ ws, a.words = ("[" : Text) :: ws ∧ r.Parsed ws a.WellFormed (fun _ => false) r' ∧
        ∀ w, a.takes w = false := by
  rw [bracketIn_succ]
  refine accept_ensures (by rfl) hr (fun r₁ hr₁ h₁ => ?_) fun _ => ?_
  · refine .pure ⟨_, by rw [Accessor.words, bracketWords], ?_, fun _ => rfl⟩
    exact ⟨h₁, trivial, hr₁, Ends.never r₁⟩
  refine atText_ensures (fun hcolon => ?_) fun _ => ?_
  · refine (ih.sliceFrom_ensures none hr hcolon).mono ?_
    rintro _ r₁ ⟨high, rfl, h₁⟩
    exact ⟨_, by rw [Accessor.words, bracketWords]; rfl, h₁.imp fun h => ⟨trivial, h⟩, fun _ => rfl⟩
  refine .seq (ih.expression r hr) ?_
  intro position r₁ h₁ a r' hm
  rw [bind_of_ok _ (atText_word _ r₁)] at hm
  by_cases hcolon : r₁.stream.nextWord? = some (":" : Text)
  · rw [decide_eq_true hcolon, if_neg (by decide)] at hm
    obtain ⟨high, rfl, h₂⟩ := ih.sliceFrom_ensures (some position) h₁.clear hcolon a r' hm
    refine ⟨_, by rw [Accessor.words, bracketWords, append_assoc], ?_, fun _ => rfl⟩
    exact (h₂.prepend h₁.spells).imp fun h => ⟨h₁.ok, h⟩
  · rw [decide_eq_false hcolon, if_pos (by decide)] at hm
    obtain ⟨_, r₂, hclose, hm⟩ := bind_ok hm
    cases hm
    obtain ⟨h₂, hr₂⟩ := expect_ensures (by rfl) h₁.clear _ _ hclose
    refine ⟨_, by rw [Accessor.words, bracketWords], ?_, fun _ => rfl⟩
    exact ⟨h₁.spells.trans h₂, h₁.ok, hr₂, Ends.never _⟩

theorem arguments_succ : Sound (argumentsIn (b + 1))
    (fun es => parenWords (commaWords (Expr.wordLists es))) Expr.AllWellFormed fun _ _ => false := by
  intro r hr
  refine .seq (expect_ensures (by rfl) hr) ?_
  rintro _ r₁ ⟨h₁, hr₁⟩
  refine accept_ensures (by rfl) hr₁ (fun r₂ hr₂ h₂ => ?_) fun _ => ?_
  · exact .pure ⟨h₁.trans h₂, trivial, hr₂, Ends.never r₂⟩
  · refine (listTo_yields (by rfl) ih.expression.yields b r₁ hr₁).mono ?_
    rintro es r₂ ⟨h₂, ⟨-, hok⟩, hr₂⟩
    simp only [← Expr.wordLists_eq] at h₂
    exact ⟨h₁.trans h₂, Expr.allWellFormed_iff.mpr hok, hr₂, Ends.never r₂⟩

theorem templateArgument_succ : Sound (templateArgumentIn (b + 1)) TemplateArgument.words
    TemplateArgument.WellFormed TemplateArgument.takes := by
  intro r hr
  refine .seq (next_ensures _ hr) ?_
  rintro t r₁ ⟨hread, hbehind⟩
  dsimp only
  by_cases htype : t.category.isTypeName
  · rw [if_pos htype]
    refine .seq (ih.typeFrom t r₁ hbehind) ?_
    intro type r₂ h₂
    exact .pure (h₂.after hread)
  rw [if_neg htype]
  by_cases hword : t.category.isArgumentWord
  · rw [← isArgumentWord, if_pos hword]
    have hcode : t.IsCode := by
      refine isCode_of_category hbehind.raw ?_ ?_ <;> revert hword <;> cases t.category <;>
        decide
    rw [category_eq hbehind.raw] at hword
    have hquiet := quiet_of_isInert (isInert_of_isArgumentWord hword)
    exact .pure ⟨Spells.one hread hcode hquiet, hword, hbehind.clear hcode, Ends.never r₁⟩
  · rw [← isArgumentWord, if_neg hword]
    exact .throw

theorem typeFrom_succ :
    SoundFrom (typeFromIn (b + 1)) TypeExpr.words TypeExpr.WellFormed TypeExpr.takes := by
  intro t r hr
  rw [typeFromIn]
  refine .guard fun htype => ?_
  rw [Bool.not_eq_true, Bool.not_eq_false'] at htype
  have ht : t.IsCode := by
    refine isCode_of_category hr.raw ?_ ?_ <;> revert htype <;> cases t.category <;> decide
  have hclear := hr.clear ht
  rw [category_eq hr.raw] at htype
  have hfirst : t.IsCode ∧ Quiet t.text :=
    ⟨ht, quiet_of_isInert (isInert_of_isTypeName htype)⟩
  refine accept_ensures (by rfl) hclear (fun r₁ hr₁ h₁ => ?_) fun hbang => ?_
  · refine accept_ensures (by rfl) hr₁ (fun r₂ hr₂ h₂ => ?_) fun _ => ?_
    · refine .seq (ih.templateArguments b hr₂) ?_
      intro arguments r₃ h₃
      refine .seq (ih.dimensionGroups b r₃ h₃.clear) ?_
      intro groups r₄ h₄
      refine .pure ⟨hfirst, _, by rw [TypeExpr.words], ?_⟩
      exact ((h₄.prepend (h₂.trans h₃.spells)).prepend h₁).imp fun h => ⟨htype, h₃.ok.1, h₃.ok.2, h⟩
    · refine .seq (ih.templateArgument r₁ hr₁) ?_
      intro argument r₂ h₂
      refine .seq (ih.dimensionGroups b r₂ h₂.clear) ?_
      intro groups r₃ h₃
      refine .pure ⟨hfirst, _, by rw [TypeExpr.words], ?_⟩
      have h := (h₃.prepend h₂.spells).prepend h₁
      refine ⟨h.spells, ⟨htype, h₂.ok, ?_, h₃.ok⟩, h.clear, fun w hw => ?_⟩
      · -- The argument was read to its end, so the bracket of a dimension is not its own.
        cases groups with
        | nil => exact .inl rfl
        | cons sizes groups => exact .inr (h₂.ends _ h₃.spells.nextWord?)
      · have hbracket : decide (w = "[") = false := h₃.ends w hw
        rw [TypeExpr.takes, hbracket, Bool.false_or]
        cases groups with
        | nil => exact h₂.ends w (by rw [← h₃.spells.nextWord?_nil]; exact hw)
        | cons sizes groups => rfl
  · refine .seq (ih.dimensionGroups b r hclear) ?_
    intro groups r₁ h₁
    refine .pure ⟨hfirst, _, by rw [TypeExpr.words], ?_⟩
    refine ⟨h₁.spells, ⟨htype, h₁.ok⟩, h₁.clear, fun w hw => ?_⟩
    have hbracket : decide (w = "[") = false := h₁.ends w hw
    rw [TypeExpr.takes, hbracket, Bool.false_or]
    cases groups with
    | nil =>
      rw [h₁.spells.nextWord?_nil] at hw
      rw [isEmpty_nil, Bool.true_and, decide_eq_false_iff_not]
      rintro rfl
      exact hbang hw
    | cons sizes groups => rfl

theorem dimensions?_succ : SoundIf (fun w => w = "[") (dimensionsIn? (b + 1))
    (fun sizes => bracketWords (commaWords (Expr.sizeWords sizes)))
    (fun sizes => sizes ≠ [] ∧ Expr.SizesWellFormed sizes) fun _ _ => false := by
  intro r hr
  refine accept_ensures (by rfl) hr (fun r₁ hr₁ h₁ => ?_) fun hbracket => ?_
  · refine .seq (ih.dimensionList r₁ hr₁) ?_
    intro sizes r₂ h₂
    exact .pure (h₂.prepend h₁)
  · refine .pure ⟨rfl, fun w hw => ?_⟩
    rw [decide_eq_false_iff_not]
    rintro rfl
    exact hbracket hw

theorem dimensionsFrom_ensures (size : Option Expr) (hr : r.Clear) :
    Ensures (dimensionsFrom (dimensionListIn b) size) r fun sizes r' => ∃ ws,
      commaWords (Expr.sizeWords sizes) ++ [("]" : Text)] = Expr.optionalWords size ++ ws ∧
        r.Parsed ws (Expr.OptionalWellFormed size → sizes ≠ [] ∧ Expr.SizesWellFormed sizes)
          (fun _ => false) r' := by
  refine accept_ensures (by rfl) hr (fun r₁ hr₁ h₁ => ?_) fun _ => ?_
  · refine .pure ⟨_, rfl, h₁, fun h => ⟨cons_ne_nil _ _, h, trivial⟩, hr₁, Ends.never r₁⟩
  · refine accept_ensures (by rfl) hr (fun r₁ hr₁ h₁ => ?_) fun _ => ?_
    · refine .seq (ih.dimensionList r₁ hr₁) ?_
      intro sizes r₂ h₂
      refine .pure ⟨_, ?_, (h₂.prepend h₁).imp
        fun h hsize => ⟨cons_ne_nil _ _, hsize, h.2⟩⟩
      rw [Expr.sizeWords, commaWords_cons _ ?_, append_assoc]
      · rfl
      · rw [Expr.sizeWords_eq]
        exact fun h => h₂.ok.1 (map_eq_nil_iff.mp h)
    · exact .seq (P := fun _ _ => True) (fun _ _ _ => trivial) fun _ _ _ => .throw

theorem dimensionList_succ : Sound (dimensionListIn (b + 1))
    (fun sizes => commaWords (Expr.sizeWords sizes) ++ [("]" : Text)])
    (fun sizes => sizes ≠ [] ∧ Expr.SizesWellFormed sizes) fun _ _ => false := by
  rw [dimensionListIn_succ]
  intro r hr sizes r' hm
  beta_reduce
  rw [bind_of_ok _ (atText_word _ r), bind_of_ok _ (atText_word _ r)] at hm
  split at hm
  · obtain ⟨ws, hws, h⟩ := ih.dimensionsFrom_ensures none hr sizes r' hm
    rw [hws]
    exact h.imp fun h => h trivial
  · obtain ⟨size, r₁, hsize, hm⟩ := bind_ok hm
    have h₁ := ih.expression r hr size r₁ hsize
    obtain ⟨ws, hws, h₂⟩ := ih.dimensionsFrom_ensures (some size) h₁.clear sizes r' hm
    rw [hws]
    exact (h₂.prepend h₁.spells).imp fun h => h h₁.ok

end ExprSound

/-- All parsers of expressions and types are sound, by induction on the budget. -/
theorem exprSound (b : Nat) : ExprSound b := by
  induction b with
  | zero => constructor <;> intro <;> intros <;> exact .throw
  | succ b ih =>
    exact {
      expression := ih.expression_succ
      expressionFrom := ih.expressionFrom_succ
      operand := ih.operand_succ
      element := ih.element_succ
      accessor? := ih.accessor?_succ
      bracket := ih.bracket_succ
      arguments := ih.arguments_succ
      templateArgument := ih.templateArgument_succ
      typeFrom := ih.typeFrom_succ
      dimensions? := ih.dimensions?_succ
      dimensionList := ih.dimensionList_succ }

end Parse

end Offside
