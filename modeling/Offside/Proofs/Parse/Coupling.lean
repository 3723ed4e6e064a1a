/-
Two runs of a parser that go on alike.

Several results compare two runs of one parser: with other tokens behind it, without what it never
reads, with other texts in comments. A `Coupling` is a relation with one rule for each step that
parsers are made of, and `Coupling.form` walks through them all.
-/
import Offside.Proofs.Form
import Offside.Proofs.Parse.Local
import Offside.Proofs.Parse.Soundness

set_option autoImplicit false

namespace Offside

open Token

/-! ## Errors and the tokens they blame -/

namespace ParseError

/-- The error shows this token. -/
structure Blames (e : ParseError) (t : Token) : Prop where
  line : e.line = t.line
  category : e.category = t.category
  text : e.text = t.text

def noOpenBlock : Text := "dedent with no open block"

/-- The error blames a token with the property, and not for a dedent that closes nothing. -/
structure Concerns (P : Token → Prop) (e : ParseError) : Prop where
  blames : ∃ t, P t ∧ e.Blames t
  reason : e.reason ≠ noOpenBlock

variable {P : Token → Prop} {t : Token}

theorem nil_ne_noOpenBlock : ([] : Text) ≠ noOpenBlock := by decide

theorem concerns_unexpected (h : P t) : (unexpected t).Concerns P :=
  ⟨⟨t, h, rfl, rfl, rfl⟩, nil_ne_noOpenBlock⟩

theorem concerns_missing (wanted : Text) (h : P t) : (missing wanted t).Concerns P :=
  ⟨⟨t, h, rfl, rfl, rfl⟩, nil_ne_noOpenBlock⟩

theorem concerns_context {reason : Text} (h : P t) (hreason : reason ≠ noOpenBlock) :
    (context reason t).Concerns P := ⟨⟨t, h, rfl, rfl, rfl⟩, hreason⟩

theorem append_ne_noOpenBlock {start : Text} (hne : start ≠ []) (h : start.head? ≠ noOpenBlock.head?)
    (text : Text) : start ++ text ≠ noOpenBlock := by
  intro heq
  rw [← heq, List.head?_append_of_ne_nil _ hne] at h
  exact h rfl

end ParseError

variable {text : Text}

theorem Token.CodeText.plain (h : Token.CodeText text) : Parse.Plain text := by
  rw [CodeText, Bool.or_eq_false_iff, Bool.or_eq_false_iff] at h
  exact h.1.1

namespace Parse

open ParseError (Concerns concerns_missing concerns_unexpected concerns_context)

/-- Tokens that are alike start the same kind of operand. -/
theorem operandStart?_eq {t u : Token} (h : t.Alike u) : operandStart? u = operandStart? t := by
  rcases h.text with htext | ⟨ht, hu⟩
  · rw [operandStart?, operandStart?, lexeme, lexeme, h.raw, htext]
  · have hno : ∀ v : Token, v.isMarker → operandStart? v = none := by
      intro v hv
      obtain ⟨m, hm⟩ := Token.isMarker_iff_lexeme.mp hv
      rw [operandStart?, hm]
    rw [hno t ht, hno u hu]

theorem text_of_operandStart? {t u : Token} {o : OperandStart} (h : t.Alike u)
    (hstart : operandStart? t = some o) : u.text = t.text := by
  rcases h.text with htext | ⟨ht, -⟩
  · exact htext
  · obtain ⟨m, hm⟩ := Token.isMarker_iff_lexeme.mp ht
    rw [operandStart?, hm] at hstart
    cases hstart

/-! ## Couplings -/

/-- Where two runs are: where a parser may look ahead, or each right behind a token. -/
inductive Place
  | ahead
  | behind (t u : Token)

def Place.Relates (R : Token → Token → Prop) : Place → Prop
  | ahead => True
  | behind t u => R t u

/-- One rule for each step of a parser. `Holds k` is about first runs with fewer than `k` tokens
ahead, so what comes after a token that was read is about `k - 1`. -/
structure Coupling where
  Holds : ∀ {α : Type}, Nat → Place → Parse α → Parse α → Prop
  /-- May the second run have a larger budget? -/
  grows : Prop
  /-- Must the budget last for the tokens ahead? -/
  lasts : Prop
  mono : ∀ {α : Type} {j k : Nat} {place : Place} {p q : Parse α}, j ≤ k → Holds k place p q → Holds j place p q
  pure : ∀ {α : Type} {k : Nat} (a : α), Holds k .ahead (Pure.pure a) (Pure.pure a)
  bind : ∀ {α β : Type} {k : Nat} {place : Place} {p q : Parse α} {f g : α → Parse β}, Holds k place p q →
    (∀ a, Holds k .ahead (f a) (g a)) → Holds k place (p >>= f) (q >>= g)
  next : ∀ {α : Type} {k : Nat} (wanted : Text) {f g : Token → Parse α},
    (∀ {t u}, t.Alike u → Holds (k - 1) (.behind t u) (f t) (g u)) →
      Holds k .ahead (next wanted >>= f) (next wanted >>= g)
  popWhen : ∀ {α : Type} {k : Nat} {test : Token → Bool} {f g : Token → Parse α} {p q : Parse α},
    (∀ t, test t → t.isMarker = false) → (∀ {t u : Token}, t.Alike u → test u = test t) →
      (∀ {t u}, t.Alike u → test t → Holds (k - 1) (.behind t u) (f t) (g u)) → Holds k .ahead p q →
        Holds k .ahead (popWhen test f p) (popWhen test g q)
  look : ∀ {α : Type} {k : Nat} {place : Place} {text : Text} {f g : Bool → Parse α}, Plain text →
    (∀ b, Holds k place (f b) (g b)) → Holds k place (atText text >>= f) (atText text >>= g)
  atLineEnd : ∀ {k : Nat}, Holds k .ahead atLineEnd atLineEnd
  require : ∀ {k : Nat} (h : Helper), Holds k .ahead (require h) (require h)
  /-- The next token is rejected, or the end of the input. -/
  missing : ∀ {α : Type} {k : Nat} (wanted : Text) {f : ParseError → ParseError},
    (∀ {P e}, Concerns P e → Concerns P (f e)) →
      Holds k .ahead (missingNext wanted >>= fun e => (reject (f e) : Parse α))
        (missingNext wanted >>= fun e => (reject (f e) : Parse α))
  bounded : ∀ {α : Type} {k : Nat} {place : Place} {p q : Nat → Parse α},
    (∀ j m n, j ≤ k → m ≤ n → (m = n ∨ grows) → (lasts → 8 * j ≤ m) → Holds j place (p m) (q n)) →
      Holds k place (bounded p) (bounded q)
  stop : ∀ {α : Type} {k : Nat} {place : Place}, (lasts → k = 0) →
    Holds k place (stopOverBudget : Parse α) stopOverBudget
  more : grows → ∀ {α : Type} {k : Nat} {place : Place} {p q : Parse α}, Holds k place p q →
    Holds k place stopOverBudget q
  /-- Code was read. -/
  code : ∀ {α : Type} {k : Nat} {t u : Token} {p q : Parse α}, (t.raw = false → t.IsCode) → Holds k .ahead p q →
    Holds k (.behind t u) p q
  /-- The token is rejected later. -/
  check : ∀ {α β : Type} {k : Nat} {t u : Token} {e : Token → ParseError} {p q : Parse α} {f g : α → Parse β}
    {c : α → Prop} [DecidablePred c], (∀ {P t}, P t → (e t).Concerns P) → Holds k (.behind t u) p q →
      (∀ a, Holds k .ahead (f a) (g a)) →
        Holds k (.behind t u) (p >>= fun a => if c a then reject (e t) else f a)
          (q >>= fun a => if c a then reject (e u) else g a)
  /-- The token that was read is rejected. -/
  reject : ∀ {α : Type} {k : Nat} {t u : Token} {e : Token → ParseError}, (∀ {P t}, P t → (e t).Concerns P) →
    Holds k (.behind t u) (reject (e t) : Parse α) (reject (e u))

namespace Coupling

variable (C : Coupling) {α β γ : Type} {place : Place} {t u : Token} {j k m n : Nat}

/-! ## Rules that follow -/

abbrev Keeps (k : Nat) (p : Parse α) : Prop := C.Holds k .ahead p p

/-- Both parsers pass a token. -/
def Passing (k : Nat) (p q : Parse α) : Prop :=
  ∀ ⦃β : Type⦄ ⦃j : Nat⦄ ⦃f g : α → Parse β⦄, j ≤ k → (∀ a, C.Holds (j - 1) .ahead (f a) (g a)) →
    C.Holds j .ahead (p >>= f) (q >>= g)

/-- Both parsers pass a token if they give something. -/
def PassingIfSome (k : Nat) (p q : Parse (Option α)) : Prop :=
  ∀ ⦃β : Type⦄ ⦃j : Nat⦄ ⦃f g : Option α → Parse β⦄, j ≤ k →
    (∀ o : Option α, C.Holds (if o.isSome then j - 1 else j) .ahead (f o) (g o)) → C.Holds j .ahead (p >>= f) (q >>= g)

abbrev Passes (k : Nat) (p : Parse α) : Prop := C.Passing k p p

def Budgets (m n : Nat) : Prop := m ≤ n ∧ (m = n ∨ C.grows)

def Enough (k m : Nat) : Prop := C.lasts → k ≤ m

variable {C}

theorem Budgets.refl (n : Nat) : C.Budgets n n := ⟨Nat.le_refl n, .inl rfl⟩

theorem Budgets.pred (h : C.Budgets (m + 1) (n + 1)) : C.Budgets m n :=
  ⟨Nat.le_of_succ_le_succ h.1, h.2.imp_left Nat.succ.inj⟩

theorem Budgets.grows (h : C.Budgets 0 (n + 1)) : C.grows := h.2.resolve_left (Nat.succ_ne_zero n).symm

theorem Enough.none (h : C.Enough (8 * k) n) (hn : n < 8) (hlasts : C.lasts) : k = 0 := by
  have := h hlasts
  omega

theorem Enough.imp (h : C.Enough k m) (hle : k ≤ m → j ≤ n) : C.Enough j n := fun hlasts => hle (h hlasts)

variable (C)
variable {p q p' q' : Parse α}

theorem done {f : α → β} (h : C.Holds k place p q) :
    C.Holds k place (p >>= fun a => Pure.pure (f a)) (q >>= fun a => Pure.pure (f a)) := C.bind h fun _ => C.pure _

variable {C} in
theorem Passing.mono (h : C.Passing k p q) (hj : j ≤ k) : C.Passing j p q := fun _ _ _ _ hi => h (hi.trans hj)

section

variable {C} {f g : α → Parse β} (h : C.Passing k p q)
include h

/-- A parser that passes a token pays for what comes behind. -/
theorem Passing.seq (hf : ∀ a, C.Holds (k - 1) .ahead (f a) (g a)) : C.Holds k .ahead (p >>= f) (q >>= g) :=
  h (Nat.le_refl k) hf

theorem Passing.done {f : α → β} :
    C.Holds k .ahead (p >>= fun a => Pure.pure (f a)) (q >>= fun a => Pure.pure (f a)) := h.seq fun _ => C.pure _

theorem Passing.holds : C.Holds k .ahead p q := by
  rw [← bind_pure p, ← bind_pure q]
  exact h.seq C.pure

/-- It also passes one as a whole. -/
theorem Passing.bind (hf : ∀ a, C.Holds (k - 1) .ahead (f a) (g a)) : C.Passing k (p >>= f) (q >>= g) := by
  intro γ j f' g' hj hf'
  rw [bind_assoc, bind_assoc]
  exact h hj fun a => C.bind (C.mono (by omega) (hf a)) hf'

end

theorem passing_next (wanted : Text) {f g : Token → Parse α}
    (h : ∀ {t u}, t.Alike u → C.Holds (k - 1) (.behind t u) (f t) (g u)) :
    C.Passing k (Parse.next wanted >>= f) (Parse.next wanted >>= g) := by
  intro γ j f' g' hj hf'
  rw [bind_assoc, bind_assoc]
  exact C.next wanted fun hu => C.bind (C.mono (by omega) (h hu)) hf'

theorem seq_map {f : α → β} {g h : β → Parse γ} (hp : C.Passing k p q)
    (hg : ∀ a, C.Holds (k - 1) .ahead (g (f a)) (h (f a))) : C.Holds k .ahead (f <$> p >>= g) (f <$> q >>= h) := by
  rw [bind_map_left, bind_map_left]
  exact hp.seq hg

theorem ite {c d : Prop} [Decidable c] [Decidable d] (hcd : c ↔ d) (hp : c → C.Holds k place p p')
    (hq : ¬ c → C.Holds k place q q') : C.Holds k place (if c then p else q) (if d then p' else q') :=
  ite_related hcd hp hq

/-- A guard blames the token behind which the parser stands. -/
theorem guard {c d : Prop} [Decidable c] [Decidable d] {e : Token → ParseError} {f g : Unit → Parse α}
    (hcd : c ↔ d) (he : ∀ {P t}, P t → (e t).Concerns P)
    (h : ¬ c → C.Holds k (.behind t u) (f ()) (g ())) : C.Holds k (.behind t u)
      (if c then (MonadExcept.throw (Stop.rejected (e t)) : Parse Unit) >>= f else f ())
      (if d then (MonadExcept.throw (Stop.rejected (e u)) : Parse Unit) >>= g else g ()) :=
  C.ite hcd (fun _ => C.reject he) h

theorem rejectNext (wanted : Text) : C.Holds k .ahead (rejectNext wanted : Parse α) (Parse.rejectNext wanted) :=
  C.missing wanted fun h => h

theorem ofCategory {c : Category} (h : t.category = c) (hmarker : c.isLineMarker = false)
    (hsign : c ≠ .punctuation) (hp : C.Holds k .ahead p q) : C.Holds k (.behind t u) p q := by
  subst h
  exact C.code (fun hraw => isCode_of_category hraw hmarker hsign) hp

theorem ofText (h : t.is text) (hcode : CodeText text) (hp : C.Holds k .ahead p q) :
    C.Holds k (.behind t u) p q := C.code (fun _ => isCode_of_is h hcode) hp

/-- A token with a text is read by both or by none. -/
theorem popAt {f g : Bool → Parse α} {p q : Token → Parse α} (hcode : CodeText text) (hf : f true = pop >>= p)
    (hg : g true = pop >>= q) (h : ∀ {t u}, t.Alike u → t.is text → C.Holds (k - 1) (.behind t u) (p t) (q u))
    (hfalse : C.Holds k .ahead (f false) (g false)) : C.Holds k .ahead (atText text >>= f) (atText text >>= g) := by
  rw [atText_eq_popWhen hf, atText_eq_popWhen hg]
  refine C.popWhen (fun t ht => ?_) (fun h => h.is_eq hcode.plain) h hfalse
  exact (isCode_of_is ht hcode).marker

theorem popOf {c : Category} {f g : Token → Parse α} (hmarker : c.isLineMarker = false)
    (h : ∀ {t u}, t.Alike u → t.category = c → C.Holds (k - 1) (.behind t u) (f t) (g u)) (hp : C.Holds k .ahead p q) :
    C.Holds k .ahead (do if ← atCategory c then pop >>= f else p) (do if ← atCategory c then pop >>= g else q) := by
  rw [← popWhen_category, ← popWhen_category]
  refine C.popWhen (fun t ht => ?_) (fun h => h.decide_category_eq hmarker)
    (fun hu ht => h hu (of_decide_eq_true ht)) hp
  rw [isMarker_of_category (of_decide_eq_true ht), hmarker]

/-- So is one that is accepted. -/
theorem ifAccept (hcode : CodeText text) (hp : C.Holds (k - 1) .ahead p p') (hq : C.Holds k .ahead q q') :
    C.Holds k .ahead (do if ← Parse.accept text then p else q) (do if ← Parse.accept text then p' else q') := by
  rw [ifAccept_eq_popWhen, ifAccept_eq_popWhen]
  refine C.popWhen (fun t ht => ?_) (fun h => h.is_eq hcode.plain) (fun _ ht => C.ofText ht hcode hp) hq
  exact (isCode_of_is ht hcode).marker

/-- An expected token is passed. -/
theorem expect {text : Text} (hcode : CodeText text) : C.Passes k (expect text) := by
  refine C.passing_next text fun {t u} h => ?_
  rw [h.is_eq hcode.plain]
  refine C.ite Iff.rfl (fun _ => C.reject (concerns_missing text)) fun ht => ?_
  rw [Bool.not_eq_true, Bool.not_eq_false'] at ht
  exact C.ofText ht hcode (C.pure _)

theorem nextOf {c : Category} {f g : Token → Parse α} (wanted : Text) (hmarker : c.isLineMarker = false)
    (h : ∀ {t u}, t.Alike u → t.category = c → C.Holds (k - 1) (.behind t u) (f t) (g u)) :
    C.Passing k (nextOf c wanted >>= f) (Parse.nextOf c wanted >>= g) := by
  rw [Parse.nextOf, bind_assoc, bind_assoc]
  refine C.passing_next wanted fun {t u} hu => ?_
  have hdecide := hu.decide_category_eq hmarker
  rw [decide_eq_decide] at hdecide
  by_cases ht : t.category = c
  · rw [if_neg (not_not_intro ht), if_neg (not_not_intro (hdecide.mpr ht))]
    exact h hu ht
  · rw [if_pos ht, if_pos fun hc => ht (hdecide.mp hc)]
    exact C.reject (concerns_missing wanted)

theorem word (wanted : Text) {f g : Text → Parse α} (h : ∀ text, C.Holds (k - 1) .ahead (f text) (g text)) :
    C.Passing k
      (do
        let t ← Parse.next wanted
        if !t.isWord then Parse.reject (.missing wanted t)
        f t.text)
      (do
        let t ← Parse.next wanted
        if !t.isWord then Parse.reject (.missing wanted t)
        g t.text) := by
  refine C.passing_next wanted fun {t u} hu => C.guard (by rw [hu.isWord_eq]) (concerns_missing wanted) fun hword => ?_
  rw [Bool.not_eq_true, Bool.not_eq_false'] at hword
  rw [hu.text_eq (isMarker_of_isWord hword)]
  exact C.code (fun _ => isCode_of_isWord hword) (h _)

theorem separator {close : Text} (hcode : CodeText close) (hp : C.Holds (k - 1) .ahead p p')
    (hq : C.Holds (k - 1) .ahead q q') :
    C.Holds k .ahead
      (do
        let t ← Parse.next close
        if t.is close then p else if t.is "," then q else Parse.reject (.missing close t))
      (do
        let t ← Parse.next close
        if t.is close then p' else if t.is "," then q' else Parse.reject (.missing close t)) := by
  refine C.next close fun {t u} h => ?_
  rw [h.is_eq hcode.plain, h.is_eq (rfl : Plain ",")]
  refine C.ite Iff.rfl (fun hclose => C.ofText hclose hcode hp) fun _ => ?_
  refine C.ite Iff.rfl (fun hcomma => C.ofText hcomma (by rfl) hq) fun _ => ?_
  exact C.reject (concerns_missing close)

/-! ## What may give nothing -/

namespace PassingIfSome

variable {C} {o o' : Parse (Option α)}

theorem none : C.PassingIfSome k (Pure.pure Option.none : Parse (Option α)) (Pure.pure Option.none) :=
  fun _ _ _ _ _ hf => hf Option.none

theorem of_passing (h : C.Passing k o o') : C.PassingIfSome k o o' :=
  fun _ _ _ _ hj hf => h hj fun a => C.mono (by split <;> omega) (hf a)

theorem look {f g : Bool → Parse (Option α)} {text : Text} (hplain : Plain text)
    (h : ∀ b, C.PassingIfSome k (f b) (g b)) : C.PassingIfSome k (atText text >>= f) (atText text >>= g) := by
  intro β j f' g' hj hf
  rw [bind_assoc, bind_assoc]
  exact C.look hplain fun b => h b hj hf

theorem ifAccept {p p' : Parse (Option α)} (hcode : CodeText text) (hp : C.Holds (k - 1) .ahead p p')
    (ho : C.PassingIfSome k o o') : C.PassingIfSome k (do if ← Parse.accept text then p else o)
      (do if ← Parse.accept text then p' else o') := by
  intro β j f g hj hf
  rw [ifAccept_bind, ifAccept_bind]
  refine C.ifAccept hcode (C.bind (C.mono (by omega) hp) fun a => ?_) (ho hj hf)
  exact C.mono (by split <;> omega) (hf a)

end PassingIfSome

/-! ## Repetition -/

variable {C}

/-- Induction on two budgets of which the second may be larger. -/
theorem Budgets.induction {H : Nat → Nat → Nat → Prop} (hmn : C.Budgets m n) (hk : C.Enough k m)
    (hstop : ∀ k, (C.lasts → k = 0) → H k 0 0) (hmore : C.grows → ∀ k n, H k n n → H k 0 n)
    (hsucc : ∀ k m n, C.Budgets m n → H (k - 1) m n → H k (m + 1) (n + 1)) : H k m n := by
  induction n generalizing k m with
  | zero =>
    obtain rfl := Nat.le_zero.mp hmn.1
    exact hstop k fun hlasts => Nat.le_zero.mp (hk hlasts)
  | succ n ih =>
    rcases m with _ | m
    · exact hmore hmn.grows k _ (hsucc k n n (Budgets.refl n) (ih (Budgets.refl n) (hk.imp (by omega))))
    · exact hsucc k m n hmn.pred (ih hmn.pred (hk.imp (by omega)))

theorem Passing.stop (h : C.lasts → k = 0) : C.Passing k (stopOverBudget : Parse α) stopOverBudget :=
  fun _ _ _ _ hj _ => C.stop fun hlasts => by have := h hlasts; omega

theorem Passing.more {p q : Parse α} (h : C.Passing k p q) (hgrows : C.grows) : C.Passing k stopOverBudget q :=
  fun _ _ _ _ hj hf => C.more hgrows (h hj hf)

/-- A loop is coupled if each round is, and passes a token. -/
theorem Budgets.repeat {ι : Type} {p q : Nat → ι → Parse α} (hmn : C.Budgets m n) (hk : C.Enough k m)
    (hp : ∀ i, p 0 i = stopOverBudget) (hq : ∀ i, q 0 i = stopOverBudget)
    (hsucc : ∀ j m n, j ≤ k → (∀ i, C.Passing (j - 1) (p m i) (q n i)) →
      ∀ i, C.Passing j (p (m + 1) i) (q (n + 1) i)) (i : ι) : C.Passing k (p m i) (q n i) := by
  refine hmn.induction (H := fun j m n => j ≤ k → ∀ i, C.Passing j (p m i) (q n i)) hk (fun j hj _ i => ?_)
    (fun hgrows j n h hj i => ?_) (fun j m n _ ih hj => hsucc j m n hj (ih (by omega))) (Nat.le_refl k) i
  · rw [hp, hq]
    exact .stop hj
  · rw [hp]
    exact (h hj i).more hgrows

/-- Lists are coupled if their items are. -/
theorem Budgets.commaList {item item' : Parse α} (hmn : C.Budgets m n) (hk : C.Enough k m)
    (h : C.Passing k item item') : C.Passing k (commaList item m) (Parse.commaList item' n) := by
  refine hmn.repeat hk (ι := Unit) (p := fun n _ => Parse.commaList item n)
    (q := fun n _ => Parse.commaList item' n) (fun _ => rfl) (fun _ => rfl) (fun j m n hj ih _ => ?_) ()
  refine (h.mono hj).bind fun a => C.ifAccept (by rfl) ?_ (C.pure _)
  exact C.mono (Nat.sub_le _ _) (ih ()).done

theorem Budgets.listTo {close : Text} {item item' : Parse α} (hmn : C.Budgets m n) (hk : C.Enough k m)
    (hcode : CodeText close) (h : C.Passing k item item') :
    C.Passing k (listTo close item m) (Parse.listTo close item' n) := by
  refine hmn.repeat hk (ι := Unit) (p := fun n _ => Parse.listTo close item n)
    (q := fun n _ => Parse.listTo close item' n) (fun _ => rfl) (fun _ => rfl) (fun j m n hj ih _ => ?_) ()
  refine (h.mono hj).bind fun a => C.separator hcode (C.pure _) ?_
  exact C.mono (Nat.sub_le _ _) (ih ()).done

theorem Budgets.many {item item' : Parse (Option α)} (hmn : C.Budgets m n) (hk : C.Enough k m)
    (h : C.PassingIfSome k item item') : C.Holds k .ahead (many item m) (Parse.many item' n) := by
  refine hmn.induction (H := fun j m n => j ≤ k → C.Holds j .ahead (Parse.many item m) (Parse.many item' n)) hk
    (fun _ hj _ => C.stop hj) (fun hgrows _ _ h hj => C.more hgrows (h hj)) (fun j m n _ ih hj => h hj ?_)
    (Nat.le_refl k)
  rintro (_ | a)
  · exact C.pure _
  · exact C.done (ih (by omega))

variable (C)

/-- The budget that is given lasts for all tokens ahead. -/
theorem ofBudgets {p q : Nat → Parse α}
    (h : ∀ {j m n}, j ≤ k → C.Budgets m n → C.Enough (8 * j) m → C.Holds j place (p m) (q n)) :
    C.Holds k place (Parse.bounded p) (Parse.bounded q) :=
  C.bounded fun _ _ _ hj hle hor hlasts => h hj ⟨hle, hor⟩ hlasts

theorem passing_ofBudgets {p q : Nat → Parse α}
    (h : ∀ {j m n}, C.Budgets m n → C.Enough (8 * j) m → C.Passing j (p m) (q n)) :
    C.Passing k (Parse.bounded p) (Parse.bounded q) := by
  intro β j f g _ hf
  rw [bounded_bind, bounded_bind]
  exact C.ofBudgets fun hi hmn hk => (h hmn hk).seq fun a => C.mono (by omega) (hf a)

/-! ## Expressions and types -/

theorem binaryOp? : C.Keeps k binaryOp? := by
  rw [binaryOp?_eq_popWhen]
  refine C.ifAccept (by rfl) (C.pure _) (C.popWhen (fun t => ?_) (fun {t u} h => ?_) (fun {t u} h hbinary => ?_)
    (C.pure _))
  · rw [← category_isLineMarker]
    cases t.category <;> decide
  · refine h.test_eq (f := fun v => v.category.isBinary) (fun v => ?_) fun htext => ?_
    · rw [← category_isLineMarker]
      cases v.category <;> decide
    · rw [Token.category, Token.category, lexeme, lexeme, h.raw, htext]
  · refine C.code (fun hraw => isCode_of_isBinary hraw hbinary) ?_
    have hplain : t.isMarker = false := by
      rw [← category_isLineMarker]
      revert hbinary
      cases t.category <;> decide
    rw [operatorFrom, operatorFrom, h.lexeme_eq hplain, h.text_eq hplain]
    split <;> try exact C.pure _
    refine C.next _ fun {t' u'} h' => ?_
    rcases h'.lexeme_cases with hlex | ⟨m, m', hm, hm'⟩
    · rw [hlex]
      split
      · next hcomparator =>
        exact C.code (fun hraw => isCode_of_isBinary hraw (by rw [Token.category, hcomparator]; rfl)) (C.pure _)
      · exact C.reject (concerns_missing _)
    · rw [hm, hm']
      exact C.reject (concerns_missing _)

theorem sliceFrom {bound bound' : Parse Expr} {f g : Bool → Parse Accessor} {low : Option Expr}
    (hf : f true = sliceFrom bound low) (hg : g true = Parse.sliceFrom bound' low)
    (h : C.Passing k bound bound') (hfalse : C.Holds k .ahead (f false) (g false)) :
    C.Holds k .ahead (atText ":" >>= f) (atText ":" >>= g) := by
  refine C.popAt (by rfl) (hf.trans (discard_bind _ _)) (hg.trans (discard_bind _ _)) (fun _ ht => ?_) hfalse
  refine C.ofText ht (by rfl) (C.look rfl ?_)
  rintro (_ | _)
  · exact C.seq_map (h.mono (Nat.sub_le k 1)) fun high => (C.expect (by rfl)).done
  · exact C.bind (C.pure none) fun high => (C.expect (by rfl)).done

theorem dimensionsFrom {more more' : Parse (List (Option Expr))} (h : C.Holds (k - 1) .ahead more more')
    (size : Option Expr) : C.Holds k .ahead (dimensionsFrom more size) (Parse.dimensionsFrom more' size) :=
  C.ifAccept (by rfl) (C.pure _)
    (C.ifAccept (by rfl) (C.done h) (C.rejectNext _))

/-- What the parsers of expressions and types do with these budgets. -/
structure Exprs (m n : Nat) : Prop where
  expression : ∀ {k}, C.Enough (8 * k) (m + 7) → C.Passing k (expressionIn m) (expressionIn n)
  expressionFrom : ∀ {k t u}, t.Alike u → C.Enough (8 * k) (m + 4) →
    C.Holds k (.behind t u) (expressionFromIn m t) (expressionFromIn n u)
  operand : ∀ {k t u}, t.Alike u → C.Enough (8 * k) (m + 5) →
    C.Holds k (.behind t u) (operandIn m t) (operandIn n u)
  element : ∀ {k}, C.Enough (8 * k) (m + 6) → C.Passing k (elementIn m) (elementIn n)
  accessor? : ∀ {k}, C.Enough (8 * k) (m + 6) → C.PassingIfSome k (accessorIn? m) (accessorIn? n)
  bracket : ∀ {k}, C.Enough (8 * k) (m + 6) → C.Holds k .ahead (bracketIn m) (bracketIn n)
  arguments : ∀ {k}, C.Enough (8 * k) (m + 7) → C.Passing k (argumentsIn m) (argumentsIn n)
  templateArgument : ∀ {k}, C.Enough (8 * k) (m + 7) → C.Passing k (templateArgumentIn m) (templateArgumentIn n)
  typeFrom : ∀ {k t u}, t.Alike u → C.Enough (8 * k) (m + 6) →
    C.Holds k (.behind t u) (typeFromIn m t) (typeFromIn n u)
  dimensions? : ∀ {k}, C.Enough (8 * k) (m + 7) → C.PassingIfSome k (dimensionsIn? m) (dimensionsIn? n)
  dimensionList : ∀ {k}, C.Enough (8 * k) (m + 6) → C.Holds k .ahead (dimensionListIn m) (dimensionListIn n)

namespace Exprs

variable {C} (ih : C.Exprs m n)
include ih

theorem expressionFrom_succ (h : t.Alike u) (hk : C.Enough (8 * k) (m + 1 + 4)) :
    C.Holds k (.behind t u) (expressionFromIn (m + 1) t) (expressionFromIn (n + 1) u) := by
  refine C.bind (ih.operand h hk) fun left => C.bind C.binaryOp? ?_
  rintro (_ | op)
  · exact C.pure _
  · refine C.bind (ih.expression (hk.imp (by omega))).holds fun right => ?_
    cases op.helper? with
    | none => exact C.pure _
    | some helper => exact C.done (C.require helper)

theorem operand_succ (hmn : C.Budgets m n) (h : t.Alike u) (hk : C.Enough (8 * k) (m + 1 + 5)) :
    C.Holds k (.behind t u) (operandIn (m + 1) t) (operandIn (n + 1) u) := by
  have haccessors : ∀ {j}, j ≤ k → C.Holds j .ahead (many (accessorIn? m) m) (many (accessorIn? n) n) :=
    fun hj => hmn.many (hk.imp (by omega)) (ih.accessor? (hk.imp (by omega)))
  rw [operandIn, operandIn, operandStart?_eq h]
  cases hstart : operandStart? t with
  | none => exact C.reject concerns_unexpected
  | some start =>
    refine C.code (fun hraw => isCode_of_fits hraw ((operandStart?_eq_some_iff hraw).mp hstart)) ?_
    cases start with
    | minus | negation => exact C.next _ fun h => C.done (ih.operand h (hk.imp (by omega)))
    | new =>
      refine C.next _ fun h => C.bind (ih.typeFrom h (hk.imp (by omega))) fun type => C.look rfl ?_
      rintro (_ | _)
      · exact C.pure _
      · exact (ih.arguments (hk.imp (by omega))).done
    | group =>
      refine (ih.expression (hk.imp (by omega))).seq fun inner => (C.expect (by rfl)).seq fun _ => ?_
      exact C.done (haccessors (by omega))
    | array =>
      have hrest : ∀ {j} elements, j ≤ k → C.Holds j .ahead (do
            return Operand.array elements (← (accessorIn? m).many m))
          (do return Operand.array elements (← (accessorIn? n).many n)) :=
        fun elements hj => C.done (haccessors hj)
      refine C.ifAccept (by rfl) (hrest [] (by omega)) (Passing.seq ?_ fun elements => hrest elements (by omega))
      exact hmn.listTo (hk.imp (by omega)) (by rfl) (ih.element (hk.imp (by omega)))
    | atom =>
      dsimp only
      rw [text_of_operandStart? h hstart]
      exact C.done (haccessors (Nat.le_refl k))

theorem element_succ (hk : C.Enough (8 * k) (m + 1 + 6)) : C.Passing k (elementIn (m + 1)) (elementIn (n + 1)) := by
  refine (ih.expression hk).bind fun value => C.ifAccept (by rfl) ?_ (C.pure _)
  exact (ih.expression (hk.imp (by omega))).done

theorem accessor?_succ (hmn : C.Budgets m n) (hk : C.Enough (8 * k) (m + 1 + 6)) :
    C.PassingIfSome k (accessorIn? (m + 1)) (accessorIn? (n + 1)) := by
  refine .ifAccept (by rfl) (C.word _ fun name => C.pure (some (Accessor.member name))).holds ?_
  refine .ifAccept (by rfl) (C.done (ih.bracket (hk.imp (by omega)))) (.look rfl ?_)
  rintro (_ | _)
  · refine .ifAccept (by rfl) (C.ifAccept (by rfl) ?_ ?_) .none
    · exact (hmn.listTo (hk.imp (by omega)) (by rfl) (ih.templateArgument (hk.imp (by omega)))).done
    · exact (ih.templateArgument (hk.imp (by omega))).done
  · exact .of_passing ((ih.arguments hk).bind fun _ => C.pure _)

theorem bracket_succ (hk : C.Enough (8 * k) (m + 1 + 6)) :
    C.Holds k .ahead (bracketIn (m + 1)) (bracketIn (n + 1)) := by
  have hexpression := ih.expression hk
  rw [bracketIn_succ, bracketIn_succ]
  refine C.ifAccept (by rfl) (C.pure _) (C.sliceFrom rfl rfl hexpression ?_)
  refine hexpression.seq fun position => C.sliceFrom rfl rfl (hexpression.mono (Nat.sub_le k 1)) ?_
  exact (C.expect (by rfl)).done

theorem arguments_succ (hmn : C.Budgets m n) (hk : C.Enough (8 * k) (m + 1 + 7)) :
    C.Passing k (argumentsIn (m + 1)) (argumentsIn (n + 1)) := by
  refine (C.expect (by rfl)).bind fun _ => C.ifAccept (by rfl) (C.pure _) (Passing.holds ?_)
  exact hmn.listTo (hk.imp (by omega)) (by rfl) (ih.expression (hk.imp (by omega)))

theorem templateArgument_succ (hk : C.Enough (8 * k) (m + 1 + 7)) :
    C.Passing k (templateArgumentIn (m + 1)) (templateArgumentIn (n + 1)) := by
  refine C.passing_next _ fun {t u} h => ?_
  dsimp only
  by_cases hmarker : t.isMarker
  · -- A marker is rejected, whatever stands in its place.
    have hno : ∀ v : Token, v.isMarker → v.category.isTypeName = false ∧ (v.category.isLiteral ||
        decide (v.category = .identifier) || decide (v.category = .constant)) = false := by
      intro v hv
      rw [← category_isLineMarker] at hv
      revert hv
      cases v.category <;> decide
    rw [(hno t hmarker).1, (hno t hmarker).2, (hno u (h.isMarker.trans hmarker)).1,
      (hno u (h.isMarker.trans hmarker)).2]
    exact C.reject (concerns_missing _)
  · rw [Bool.not_eq_true] at hmarker
    rw [h.category_eq hmarker, h.text_eq hmarker]
    refine C.ite Iff.rfl (fun _ => C.done (ih.typeFrom h (hk.imp (by omega)))) fun _ => ?_
    refine C.ite Iff.rfl (fun hword => C.code (fun hraw => ?_) (C.pure _)) fun _ => C.reject (concerns_missing _)
    refine isCode_of_category hraw ?_ ?_ <;> revert hword <;> cases t.category <;> decide

theorem typeFrom_succ (hmn : C.Budgets m n) (h : t.Alike u) (hk : C.Enough (8 * k) (m + 1 + 6)) :
    C.Holds k (.behind t u) (typeFromIn (m + 1) t) (typeFromIn (n + 1) u) := by
  have hdimensions : ∀ {j}, j ≤ k → C.Holds j .ahead (many (dimensionsIn? m) m) (many (dimensionsIn? n) n) :=
    fun hj => hmn.many (hk.imp (by omega)) (ih.dimensions? (hk.imp (by omega)))
  rw [typeFromIn, typeFromIn]
  refine C.guard (by rw [h.isTypeName_eq]) (concerns_missing _) fun htype => ?_
  rw [Bool.not_eq_true, Bool.not_eq_false'] at htype
  rw [h.text_eq (isMarker_of_isTypeName htype)]
  refine C.code (fun hraw => ?_) ?_
  · refine isCode_of_category hraw ?_ ?_ <;> revert htype <;> cases t.category <;> decide
  refine C.ifAccept (by rfl) (C.ifAccept (by rfl) ?_ ?_) (C.done (hdimensions (Nat.le_refl k)))
  · refine Passing.seq (hmn.listTo (hk.imp (by omega)) (by rfl) (ih.templateArgument (hk.imp (by omega))))
      fun args => ?_
    exact C.done (hdimensions (by omega))
  · exact (ih.templateArgument (hk.imp (by omega))).seq fun arg => C.done (hdimensions (by omega))

theorem dimensionList_succ (hk : C.Enough (8 * k) (m + 1 + 6)) :
    C.Holds k .ahead (dimensionListIn (m + 1)) (dimensionListIn (n + 1)) := by
  rw [dimensionListIn_succ, dimensionListIn_succ]
  refine C.look rfl fun closes => C.look rfl fun goesOn => ?_
  cases closes || goesOn with
  | true => exact C.dimensionsFrom (ih.dimensionList (hk.imp (by omega))) none
  | false => exact (ih.expression hk).seq fun size => C.dimensionsFrom (ih.dimensionList (hk.imp (by omega))) _

/-- One more level of recursion couples all parsers of expressions and types. -/
theorem succ (hmn : C.Budgets m n) : C.Exprs (m + 1) (n + 1) where
  expression hk := C.passing_next _ fun h => ih.expressionFrom h (hk.imp (by omega))
  expressionFrom := ih.expressionFrom_succ
  operand := ih.operand_succ hmn
  element := ih.element_succ
  accessor? := ih.accessor?_succ hmn
  bracket := ih.bracket_succ
  arguments := ih.arguments_succ hmn
  templateArgument := ih.templateArgument_succ
  typeFrom := ih.typeFrom_succ hmn
  dimensions? hk := .ifAccept (by rfl) (C.done (ih.dimensionList (hk.imp (by omega)))) .none
  dimensionList := ih.dimensionList_succ

omit ih in
theorem zero : C.Exprs 0 0 := by
  constructor <;> intros <;> rename_i hk
  all_goals first
    | exact C.stop (hk.none (by decide))
    | exact .stop (hk.none (by decide))
    | exact .of_passing (.stop (hk.none (by decide)))

theorem more (hgrows : C.grows) : C.Exprs 0 n where
  expression hk := (ih.expression (hk.imp (by omega))).more hgrows
  expressionFrom h hk := C.more hgrows (ih.expressionFrom h (hk.imp (by omega)))
  operand h hk := C.more hgrows (ih.operand h (hk.imp (by omega)))
  element hk := (ih.element (hk.imp (by omega))).more hgrows
  accessor? hk _ _ _ _ hj hf := C.more hgrows (ih.accessor? (hk.imp (by omega)) hj hf)
  bracket hk := C.more hgrows (ih.bracket (hk.imp (by omega)))
  arguments hk := (ih.arguments (hk.imp (by omega))).more hgrows
  templateArgument hk := (ih.templateArgument (hk.imp (by omega))).more hgrows
  typeFrom h hk := C.more hgrows (ih.typeFrom h (hk.imp (by omega)))
  dimensions? hk _ _ _ _ hj hf := C.more hgrows (ih.dimensions? (hk.imp (by omega)) hj hf)
  dimensionList hk := C.more hgrows (ih.dimensionList (hk.imp (by omega)))

end Exprs

variable {C}

/-- They are coupled at every budget. -/
theorem Budgets.exprs (h : C.Budgets m n) : C.Exprs m n :=
  h.induction (H := fun _ m n => C.Exprs m n) (k := 0) (fun _ => Nat.zero_le m) (fun _ _ => .zero)
    (fun hgrows _ _ ih => ih.more hgrows) fun _ _ _ hmn ih => ih.succ hmn

variable (C)

theorem expression : C.Passes k expression := C.passing_ofBudgets fun h hk => h.exprs.expression (hk.imp (by omega))

theorem commaLists {item : Parse α} (h : ∀ k, C.Passes k item) : C.Keeps k (Parse.bounded (commaList item)) :=
  (C.passing_ofBudgets fun hmn hk => hmn.commaList (hk.imp (by omega)) (h _)).holds

theorem expressionList : C.Keeps k expressionList := C.commaLists fun _ => C.expression

theorem arguments : C.Passes k arguments := C.passing_ofBudgets fun h hk => h.exprs.arguments (hk.imp (by omega))

theorem accessors : C.Keeps k accessors :=
  C.ofBudgets fun _ h hk => h.many (hk.imp (by omega)) (h.exprs.accessor? (hk.imp (by omega)))

theorem typeFrom (h : t.Alike u) : C.Holds k (.behind t u) (typeFrom t) (Parse.typeFrom u) :=
  C.ofBudgets fun _ hmn hk => hmn.exprs.typeFrom h (hk.imp (by omega))

/-! ## Declarations -/

theorem nameOf {c : Category} (wanted : Text) (hmarker : c.isLineMarker = false) (hsign : c ≠ .punctuation) :
    C.Passes k (do return (← Parse.nextOf c wanted).text) := by
  refine C.nextOf _ hmarker fun {t u} h ht => ?_
  rw [h.text_eq ((isMarker_of_category ht).trans hmarker)]
  exact C.ofCategory ht hmarker hsign (C.pure _)

theorem identifier : C.Passes k identifier := C.nameOf _ rfl (by decide)

theorem modulePath : C.Passes k modulePath := by
  refine C.passing_ofBudgets fun hmn hk => ?_
  refine hmn.repeat (hk.imp (by omega)) (ι := Unit) (p := fun n _ => modulePathIn n) (q := fun n _ => modulePathIn n)
    (fun _ => rfl) (fun _ => rfl) (fun j m n _ ih _ => ?_) ()
  refine Passing.bind (C.word _ fun _ => C.pure _) fun segment => C.ifAccept (by rfl) ?_ (C.pure _)
  exact C.mono (Nat.sub_le _ _) (ih ()).done

theorem symbolImport : C.Keeps k symbolImport := by
  refine C.modulePath.seq fun path => (C.expect (by rfl)).seq fun _ => ?_
  exact C.done (C.commaLists fun _ => C.word _ fun _ => C.pure _)

theorem variableBinding : C.Passes k variableBinding := by
  refine C.identifier.bind fun name => C.popOf rfl (fun {op op'} h hop => ?_) (C.pure _)
  refine C.guard (not_congr (h.text_eq_iff (rfl : Plain "=")).symm) concerns_unexpected fun _ => ?_
  exact C.ofCategory hop rfl (by decide) C.expression.done

theorem declarationForm (h : t.Alike u) : C.Holds k (.behind t u) (declarationForm t) (Parse.declarationForm u) :=
  C.done (C.bind (C.typeFrom h) fun _ => C.done (C.commaLists fun _ => C.variableBinding))

theorem parameterBinding (name : Text) : C.Keeps k (parameterBinding name) :=
  C.ifAccept (by rfl) C.expression.done (C.pure _)

theorem storageFrom {f : List Text × Token → Parse α} (h : t.Alike u)
    (hf : ∀ {k storage t u}, t.Alike u → C.Holds k (.behind t u) (f (storage, t)) (f (storage, u))) :
    C.Holds k (.behind t u) (Parse.bounded (fun n => storageFrom n t) >>= f)
      (Parse.bounded (fun n => Parse.storageFrom n u) >>= f) := by
  rw [bounded_bind, bounded_bind]
  refine C.ofBudgets fun _ hmn hk => ?_
  refine hmn.induction (H := fun k m n => ∀ {f : List Text × Token → Parse α} {t u}, t.Alike u →
    (∀ {k storage t u}, t.Alike u → C.Holds k (.behind t u) (f (storage, t)) (f (storage, u))) →
      C.Holds k (.behind t u) (Parse.storageFrom m t >>= f) (Parse.storageFrom n u >>= f)) (hk.imp (by omega))
    (fun _ hk {_ _ _} _ _ => C.stop hk) (fun hgrows _ _ ih _ _ _ h hf => C.more hgrows (ih h fun h => hf h)) ?_ h
    fun h => hf h
  intro k m n _ ih f t u h hf
  have hdecide := h.decide_category_eq (c := .attributeWord) rfl
  rw [decide_eq_decide] at hdecide
  rw [Parse.storageFrom, Parse.storageFrom]
  by_cases ht : t.category = .attributeWord
  · rw [if_pos ht, if_pos (hdecide.mpr ht), bind_assoc, bind_assoc]
    refine C.ofCategory ht rfl (by decide) (C.next _ fun {t' u'} h' => ?_)
    rw [bind_assoc, bind_assoc, h.text_eq (isMarker_of_category ht)]
    exact ih h' fun h => hf h
  · rw [if_neg ht, if_neg fun hu => ht (hdecide.mp hu)]
    exact hf h

theorem parameter (groups : List ParameterGroup) : C.Passes k (parameter groups) := by
  refine C.passing_next _ fun {t u} h => ?_
  have hdecide := h.decide_category_eq (c := .identifier) rfl
  rw [decide_eq_decide] at hdecide
  refine C.ite hdecide.symm (fun ht => ?_) fun _ => C.storageFrom h fun {k storage t u} h => ?_
  · cases groups with
    | nil => exact C.reject (concerns_missing _)
    | cons g gs =>
      dsimp only
      rw [h.text_eq (isMarker_of_category ht)]
      exact C.ofCategory ht rfl (by decide) (C.done (C.parameterBinding _))
  · refine C.bind (C.typeFrom h) fun type => C.identifier.seq fun name => ?_
    exact C.done (C.parameterBinding name)

/-- Parameters are coupled. -/
theorem parameters : C.Keeps k parameters := by
  refine (C.expect (by rfl)).seq fun _ => C.ifAccept (by rfl) (C.pure _) (C.ofBudgets fun _ hmn hk => ?_)
  refine Passing.holds (hmn.repeat (hk.imp (by omega)) (p := parametersIn) (q := parametersIn) (fun _ => rfl)
    (fun _ => rfl) (fun j m n _ ih groups => ?_) [])
  refine (C.parameter groups).bind fun groups' => C.separator (by rfl) (C.pure _) ?_
  exact C.mono (Nat.sub_le _ _) (ih groups').holds

/-! ## Headers -/

theorem resultFrom (word : FunctionWord) (inClass : Bool) (bound : List Text) (name : Text)
    (parameters : List ParameterGroup) : C.Keeps k (resultFrom word inClass bound name parameters) := by
  refine C.popAt (by rfl) rfl rfl (fun {arrow arrow'} _ harrow => ?_) (C.pure _)
  refine C.guard Iff.rfl (fun h => concerns_context h (by decide)) fun _ => ?_
  refine C.ofText harrow (by rfl) (C.next _ fun h => ?_)
  rw [bind_map_left, bind_map_left]
  exact C.bind (C.typeFrom h) fun type => C.pure _

/-- Function headers are coupled. -/
theorem functionHeader (word : FunctionWord) (inClass : Bool) (bound : List Text) :
    C.Keeps k (functionHeader word inClass bound) := by
  rw [functionHeader_eq]
  refine C.identifier.seq fun name => C.look rfl ?_
  rintro (_ | _)
  · exact C.resultFrom _ _ _ _ _
  · exact C.bind C.parameters fun parameters => C.resultFrom _ _ _ _ _

theorem parentsFrom (word : UserType) (name : Text) (parameters : List Text) :
    C.Keeps k (parentsFrom word name parameters) := by
  have hparent : ∀ k, C.Passes k parent := fun _ => C.nextOf _ rfl fun h _ => C.typeFrom h
  refine C.popAt (by rfl) rfl rfl (fun {inherits inherits'} _ hinherits => ?_) (C.pure _)
  refine C.guard Iff.rfl (fun h => concerns_context h (by decide)) fun _ => ?_
  exact C.ofText hinherits (by rfl) (C.done (C.commaLists hparent))

theorem userTypeHeader (word : UserType) : C.Keeps k (userTypeHeader word) := by
  rw [userTypeHeader_eq]
  refine Passing.holds (C.nextOf _ rfl fun {name name'} h hname => ?_)
  rw [h.text_eq (isMarker_of_category hname)]
  refine C.ofCategory hname rfl (by decide) (C.ifAccept (by rfl) ?_ (C.parentsFrom _ _ _))
  refine Passing.seq (C.passing_ofBudgets fun h hk => h.listTo (hk.imp (by omega)) (by rfl) ?_)
    fun parameters => C.parentsFrom _ _ _
  exact C.nameOf _ rfl (by decide)

theorem forHeader : C.Keeps k forHeader := by
  have hsequence : ∀ {k} names, C.Keeps k (sequenceFrom names) := fun names =>
    (C.expect (by rfl)).seq fun _ => C.expression.done
  rw [forHeader_eq]
  refine C.identifier.seq fun first => C.ifAccept (by rfl) ?_ (hsequence _)
  exact C.identifier.seq fun second => hsequence _

theorem catchHeader : C.Keeps k catchHeader := by
  refine C.next _ fun h => C.bind (C.typeFrom h) fun type => ?_
  refine C.popOf (c := .identifier) (f := fun t => return Header.catching type (some t.text)) rfl
    (fun {name name'} h hname => ?_) (C.pure _)
  rw [h.text_eq (isMarker_of_category hname)]
  exact C.ofCategory hname rfl (by decide) (C.pure _)

theorem raised : C.Keeps k raised := by
  refine C.next _ fun {t u} h => C.look rfl fun called => ?_
  rw [h.decide_category_eq (c := .classIdentifier) rfl]
  refine C.ite Iff.rfl (fun hclass => ?_) fun _ => ?_
  · rw [Bool.and_eq_true, decide_eq_true_iff] at hclass
    rw [h.text_eq (isMarker_of_category hclass.1)]
    exact C.ofCategory hclass.1 rfl (by decide) C.arguments.done
  · exact C.done (C.ofBudgets fun _ hmn hk => hmn.exprs.expressionFrom h (hk.imp (by omega)))

/-! ## Forms -/

theorem targetForm (t : Token) : C.Keeps k (targetForm t) := by
  refine C.bind C.accessors fun accessors => C.popOf rfl (fun {op op'} h hop => ?_) ?_
  · rw [h.text_eq (isMarker_of_category hop)]
    exact C.ofCategory hop rfl (by decide) C.expression.done
  refine C.bind C.atLineEnd fun atEnd => C.ite Iff.rfl (fun _ => C.pure _) fun _ => C.missing _ fun h => ?_
  obtain ⟨⟨t, ht, hblames⟩, hreason⟩ := h
  exact ⟨⟨t, ht, hblames.line, hblames.category, hblames.text⟩, hreason⟩

theorem targetForm_eq (h : u.text = t.text) : Parse.targetForm u = Parse.targetForm t := by
  rw [Parse.targetForm, Parse.targetForm, h]

/-- What the text of a token is when something is read as it, and what may come after. -/
structure IsWord (t u : Token) : Prop where
  text : u.text = t.text
  code : ∀ {α : Type} {k : Nat} {p q : Parse α}, C.Holds k .ahead p q → C.Holds k (.behind t u) p q

theorem isWord {l : Lexeme} (h : t.Alike u) (hl : t.lexeme = l)
    (hcode : (l.category.isLineMarker || decide (l.category = .punctuation)) = false) : C.IsWord t u := by
  rw [Bool.or_eq_false_iff, decide_eq_false_iff_not] at hcode
  exact ⟨h.text_eq ((isMarker_of_lexeme hl).trans hcode.1),
    C.code fun hraw => isCode_of_lexeme hraw hl hcode.1 hcode.2⟩

/-- Statements are coupled, word by word. -/
theorem statementForm (w : StatementWord) (h : C.IsWord t u) (v : View) :
    C.Holds k (.behind t u) (statementForm w t v) (Parse.statementForm w u v) := by
  have hjump : C.Holds k (.behind t u) (Parse.statementForm .breakWord t v) (Parse.statementForm .breakWord u v) := by
    dsimp only [Parse.statementForm]
    refine C.guard (e := fun t => .context ("'" ++ t.text ++ "' outside of a loop") t) Iff.rfl (fun h => ?_) fun _ => ?_
    · rw [List.append_assoc]
      exact concerns_context h (ParseError.append_ne_noOpenBlock (by decide) (by decide) _)
    · rw [h.text]
      exact h.code (C.pure _)
  cases w with
  | returnWord =>
    dsimp only [Parse.statementForm]
    refine C.guard (e := .context "'return' outside of a function") Iff.rfl
      (fun h => concerns_context h (by decide)) fun _ => h.code ?_
    refine C.bind C.atLineEnd fun atEnd => C.ite Iff.rfl (fun _ => C.pure _) fun _ => ?_
    exact C.expression.done
  | breakWord => exact hjump
  | continueWord => exact hjump
  | passWord | unittestWord => exact h.code (C.pure _)
  | printWord =>
    refine h.code (C.bind (C.require _) fun _ => C.bind C.atLineEnd fun atEnd => ?_)
    exact C.ite Iff.rfl (fun _ => C.pure _) fun _ => C.done C.expressionList
  | assertWord =>
    exact C.check (e := .context "'assert' takes a condition and an optional message")
      (fun h => concerns_context h (by decide)) (h.code C.expressionList)
      fun arguments => C.pure (Form.line false (.assertion arguments))
  | forWord => exact h.code (C.done C.forHeader)
  | whileWord => exact h.code C.expression.done
  | passthroughWord => exact C.reject concerns_unexpected

theorem constructorForm (w : ConstructorWord) (h : C.IsWord t u) (v : View) :
    C.Holds k (.behind t u) (form (.keyword (.constructorWord w)) t v)
      (Parse.form (.keyword (.constructorWord w)) u v) := by
  have htarget : C.Holds k (.behind t u) (Parse.targetForm t) (Parse.targetForm u) := by
    rw [targetForm_eq h.text]
    exact h.code (C.targetForm t)
  cases w with
  | thisWord =>
    refine C.look rfl fun called => C.ite Iff.rfl (fun _ => ?_) fun _ => htarget
    refine C.guard Iff.rfl (fun h => concerns_context h (by decide)) fun _ => h.code ?_
    exact C.done C.parameters
  | superWord => exact htarget
  | newWord => exact C.reject concerns_unexpected

theorem shapeForm (s : Shape) (h : t.Alike u) (hl : t.lexeme = .shape s) (v : View) :
    C.Holds k (.behind t u) (form (.shape s) t v) (Parse.form (.shape s) u v) := by
  cases s with
  | constant =>
    have hword := C.isWord h hl rfl
    rw [Parse.form, Parse.form, hword.text, targetForm_eq hword.text]
    refine hword.code (C.ifAccept (by rfl) C.expression.done (C.targetForm t))
  | classIdentifier =>
    have hword := C.isWord h hl rfl
    refine C.look rfl fun dot => C.look rfl fun opens => C.ite Iff.rfl (fun _ => ?_) fun _ => C.declarationForm h
    rw [targetForm_eq hword.text]
    exact hword.code (C.targetForm t)
  | templateType =>
    rw [Parse.form, Parse.form]
    refine C.guard (e := fun t => .context ("template type '" ++ t.text ++ "' outside of a template class") t)
      Iff.rfl (fun h => ?_) fun _ => C.declarationForm h
    rw [List.append_assoc]
    exact concerns_context h (ParseError.append_ne_noOpenBlock (by decide) (by decide) _)
  | _ => exact C.reject concerns_unexpected

/-- Whatever a clause is read with is coupled. -/
theorem form (h : t.Alike u) (v : View) : C.Holds k (.behind t u) (form t.lexeme t v) (Parse.form u.lexeme u v) := by
  rcases h.lexeme_cases with hu | ⟨m, m', hm, hm'⟩
  swap
  · -- The two may be different markers, and no form starts with a marker.
    rw [hm, hm']
    exact C.reject concerns_unexpected
  rw [hu]
  cases hl : t.lexeme with
  | plain =>
    have hword := C.isWord h hl rfl
    change C.Holds _ _ (Parse.targetForm t) (Parse.targetForm u)
    rw [targetForm_eq hword.text]
    exact hword.code (C.targetForm t)
  | shape s => exact C.shapeForm s h hl v
  | keyword k =>
    cases k with
    | libraryWord w =>
      have hword := C.isWord h hl rfl
      cases w with
      | importWord => exact hword.code (C.done (C.done (C.commaLists fun _ => C.modulePath)))
      | fromWord => exact hword.code (C.done C.symbolImport)
    | statement w => exact C.statementForm w (C.isWord h hl rfl) v
    | constructorWord w => exact C.constructorForm w (C.isWord h hl rfl) v
    | typeWord => exact C.declarationForm h
    | functionWord w =>
      rw [Parse.form, Parse.form]
      refine C.guard (e := .context "'method' outside of a class") Iff.rfl
        (fun h => concerns_context h (by decide)) fun _ => (C.isWord h hl rfl).code ?_
      exact C.done (C.functionHeader _ _ _)
    | userType w => exact (C.isWord h hl rfl).code (C.done (C.userTypeHeader w))
    | conditional w =>
      have hword := C.isWord h hl rfl
      cases w with
      | ifWord | switchWord => exact hword.code C.expression.done
      | elseWord =>
        exact hword.code (C.ifAccept (by rfl) C.expression.done (C.pure _))
      | _ => exact C.reject concerns_unexpected
    | exceptionWord w =>
      have hword := C.isWord h hl rfl
      cases w with
      | tryWord | finallyWord => exact hword.code (C.pure _)
      | exceptWord => exact hword.code (C.done C.catchHeader)
      | raiseWord => exact hword.code (C.done C.raised)
    | _ => exact C.reject concerns_unexpected

end Coupling

end Parse

end Offside
