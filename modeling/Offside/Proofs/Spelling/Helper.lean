/-
Which words ask for a helper.

The sign `..` asks for a range wherever it stands, `print` at the front of a line for itself, and
`in` for a membership test, unless it is a name behind a dot or stands in the header of a loop or in
a module path.
-/
import Offside.Proofs.Prelude
import Offside.Proofs.Spelling.Expr

set_option autoImplicit false

namespace Offside

open List Text Category Keyword

/-! ## Preludes -/

variable {x : Helper} {k : Keyword} {op : BinaryOp} {us : List Text}

namespace Prelude

variable {p p₁ p₂ : Prelude} {A B : Helper → Prop}

def requireAll (p : Prelude) (hs : List Helper) : Prelude := hs.foldl require p

theorem mem_require {h : Helper} : x ∈ (p.require h).used ↔ x ∈ p.used ∨ x = h := by
  rw [require]
  split
  · next hmem =>
    constructor
    · exact .inl
    · rintro (hx | rfl)
      · exact hx
      · exact hmem
  · simp

/-- What is in use was before or was asked for. -/
theorem mem_requireAll {hs : List Helper} : x ∈ (p.requireAll hs).used ↔ x ∈ p.used ∨ x ∈ hs := by
  induction hs generalizing p with
  | nil => simp [requireAll]
  | cons h hs ih =>
    have hcons : p.requireAll (h :: hs) = (p.require h).requireAll hs := rfl
    rw [hcons, ih, mem_require, mem_cons, or_assoc]

theorem nodup_require (hp : p.used.Nodup) (h : Helper) : (p.require h).used.Nodup := by
  rw [require_used]
  exact nodup_addNew hp h

def Records (p : Prelude) (asked : Helper → Prop) (p' : Prelude) : Prop :=
  ∃ hs, p' = p.requireAll hs ∧ ∀ x, x ∈ hs ↔ asked x

namespace Records

theorem none (p : Prelude) : p.Records (fun _ => False) p := ⟨[], rfl, fun _ => by simp⟩

theorem one (p : Prelude) (h : Helper) : p.Records (· = h) (p.require h) :=
  ⟨[h], rfl, fun _ => mem_singleton⟩

/-- Two parts record what either asks for. -/
theorem trans (h : p.Records A p₁) (h' : p₁.Records B p₂) : p.Records (fun x => A x ∨ B x) p₂ := by
  obtain ⟨hs, rfl, hA⟩ := h
  obtain ⟨ks, rfl, hB⟩ := h'
  refine ⟨hs ++ ks, foldl_append.symm, fun x => ?_⟩
  rw [mem_append, hA, hB]

theorem congr (h : p.Records A p₁) (hAB : ∀ x, A x ↔ B x) : p.Records B p₁ := by
  obtain ⟨hs, hp, hA⟩ := h
  exact ⟨hs, hp, fun x => (hA x).trans (hAB x)⟩

theorem of_none (h : ∀ x, ¬ A x) (hp : p₁ = p) : p.Records A p₁ := by
  subst hp
  exact (none _).congr fun x => (iff_false_intro (h x)).symm

/-- What was recorded is in use. -/
theorem mem_iff (h : p.Records A p₁) (x : Helper) : x ∈ p₁.used ↔ x ∈ p.used ∨ A x := by
  obtain ⟨hs, rfl, hA⟩ := h
  rw [mem_requireAll, hA]

theorem nodup (h : p.Records A p₁) (hp : p.used.Nodup) : p₁.used.Nodup := by
  obtain ⟨hs, rfl, -⟩ := h
  induction hs generalizing p with
  | nil => exact hp
  | cons h hs ih => exact ih (nodup_require hp h)

end Records

end Prelude

/-! ## Words that ask for nothing -/

variable {w : Text} {c : Category} {ws : List Text}

namespace Text

/-- A word that asks for no helper, wherever it stands, and does not take the next one for a name. -/
def Quiet (w : Text) : Prop := w ∉ (["in", "..", "."] : List Text)

instance : DecidablePred Quiet := fun w => inferInstanceAs (Decidable (w ∉ _))

theorem quiet_iff : Quiet w ↔ w ≠ "in" ∧ w ≠ ".." ∧ w ≠ "." := by
  simp [Quiet]

/-- Names, literals and keywords ask for nothing. -/
theorem quiet_of_category (h : ofText w = c) (hc : c ≠ .punctuation ∧ c ≠ .comparator) : Quiet w := by
  have hsign : ∀ {sign : Text}, sign ∈ Lexeme.signs → w ≠ sign := by
    rintro sign hsign rfl
    refine hc.1 (h.symm.trans ?_)
    rw [ofText, Lexeme.ofText_sign hsign]
    rfl
  refine quiet_iff.mpr ⟨?_, hsign (by decide), hsign (by decide)⟩
  rintro rfl
  have hin : Lexeme.ofText ("in" : Text) = .keyword (.comparator .member) := Lexeme.ofText_text rfl
  refine hc.2 (h.symm.trans ?_)
  rw [ofText, hin]
  rfl

end Text

namespace Category

/-- Do the words of the category ask for nothing, not even at the front of a line? -/
def isInert : Category → Bool
  | punctuation | comparator | attributeWord | statement | libraryWord => false
  | _ => true

theorem isInert_of_isTypeName (h : c.isTypeName) : c.isInert := by
  revert h
  cases c <;> decide

theorem isInert_of_isArgumentWord (h : c.isArgumentWord) : c.isInert := by
  revert h
  cases c <;> decide

theorem isInert_of_isAtom {l : Lexeme} (h : l.isAtom) : l.category.isInert := by
  cases l with
  | plain => rfl
  | shape s =>
    cases s with
    | punctuation => cases h
    | _ => rfl
  | keyword k =>
    cases k with
    | typeWord => rfl
    | constructorWord => rfl
    | _ => cases h

end Category

namespace Text

theorem quiet_of_isInert (h : (ofText w).isInert) : Quiet w := by
  refine quiet_of_category rfl ?_
  revert h
  cases ofText w <;> decide

end Text

/-! ## Words of expressions and types -/

theorem getLast?_append_ne {α : Type} {a : α} {k l : List α} (h : k.getLast? ≠ some a)
    (h' : l.getLast? ≠ some a) : (k ++ l).getLast? ≠ some a := by
  rw [getLast?_append]
  cases hlast : l.getLast? with
  | none => exact h
  | some v => rw [hlast] at h'; exact h'

def FreeIn (words : List Text) : Prop :=
  ∃ before after, words = before ++ ("in" : Text) :: after ∧ before.getLast? ≠ some ("." : Text)

/-- An `in` that counts is in one part or the other. -/
theorem freeIn_append (h : ws.getLast? ≠ some ("." : Text)) : FreeIn (ws ++ us) ↔ FreeIn ws ∨ FreeIn us := by
  constructor
  · rintro ⟨before, after, hsplit, hdot⟩
    rcases append_eq_append_iff.mp hsplit with ⟨middle, rfl, hus⟩ | ⟨middle, hws, hafter⟩
    · refine .inr ⟨middle, after, hus, fun hlast => hdot ?_⟩
      rw [getLast?_append, hlast]
      rfl
    · cases middle with
      | nil => exact .inr ⟨[], after, hafter.symm, nofun⟩
      | cons w middle =>
        obtain ⟨rfl, -⟩ := cons.inj hafter
        exact .inl ⟨before, middle, hws, hdot⟩
  · rintro (⟨before, after, rfl, hdot⟩ | ⟨before, after, rfl, hdot⟩)
    · exact ⟨before, after ++ us, by simp, hdot⟩
    · exact ⟨ws ++ before, after, by simp, getLast?_append_ne h hdot⟩

theorem not_freeIn (h : ("in" : Text) ∉ ws) : ¬ FreeIn ws := by
  rintro ⟨before, after, rfl, -⟩
  exact h (by simp)

namespace Helper

variable {ws us : List Text} {x : Helper}

def Within (words : List Text) : Helper → Prop
  | print => False
  | range => (".." : Text) ∈ words
  | contains => FreeIn words

/-- Parts ask for what the whole asks for. -/
theorem within_append (h : ws.getLast? ≠ some ("." : Text)) : x.Within (ws ++ us) ↔ x.Within ws ∨ x.Within us := by
  cases x with
  | print => exact (or_self_iff).symm
  | range => exact mem_append
  | contains => exact freeIn_append h

theorem not_within_nil : ¬ x.Within [] := by
  cases x with
  | print => exact id
  | range => nofun
  | contains => exact not_freeIn nofun

theorem not_within_quiet (hw : Quiet w) : ¬ x.Within [w] := by
  obtain ⟨hin, hrange, -⟩ := quiet_iff.mp hw
  cases x with
  | print => exact id
  | range => simpa [Within] using hrange.symm
  | contains => exact not_freeIn (by simpa using hin.symm)

theorem within_cons (hw : Quiet w) : x.Within (w :: ws) ↔ x.Within ws := by
  have hdot : [w].getLast? ≠ some ("." : Text) := by simpa using (quiet_iff.mp hw).2.2
  rw [← singleton_append, within_append hdot, or_iff_right (not_within_quiet hw)]

theorem not_within_of_quiet (h : ∀ w ∈ ws, Quiet w) : ¬ x.Within ws := by
  induction ws with
  | nil => exact not_within_nil
  | cons w ws ih =>
    obtain ⟨hw, hws⟩ := forall_mem_cons.mp h
    rw [within_cons hw]
    exact ih hws

/-- A name behind a dot asks for nothing. -/
theorem not_within_member (hw : w.isWord) : ¬ x.Within [".", w] := by
  cases x with
  | print => exact id
  | range =>
    have hne : w ≠ ".." := by rintro rfl; cases hw
    simpa [Within] using ⟨by decide, hne.symm⟩
  | contains =>
    rintro ⟨before, after, hsplit, hdot⟩
    match before, hsplit with
    | [], hsplit => cases hsplit
    | [_], hsplit => cases hsplit; exact hdot rfl
    | _ :: _ :: _, hsplit => simp at hsplit

end Helper

/-- An operator asks for its own helper. -/
theorem BinaryOp.within_iff (h : op.WellFormed) (x : Helper) : x.Within op.words ↔ op.helper? = some x := by
  have hcompare : ∀ c : Comparator, x.Within [c.text] ↔ (BinaryOp.compare false c).helper? = some x := by
    intro c
    cases c with
    | member =>
      cases x with
      | print => exact iff_of_false id nofun
      | range => exact iff_of_false (by simp [Helper.Within, Comparator.text]; decide) nofun
      | contains => exact iff_of_true ⟨[], [], rfl, nofun⟩ rfl
    | _ => exact iff_of_false (Helper.not_within_quiet (by decide)) nofun
  cases op with
  | arithmetic symbol =>
    refine iff_of_false (Helper.not_within_quiet ?_) nofun
    exact quiet_of_category (congrArg Lexeme.category h) (by decide)
  | and | or => exact iff_of_false (Helper.not_within_quiet (by decide)) nofun
  | compare negated c =>
    cases negated with
    | false => exact hcompare c
    | true =>
      rw [BinaryOp.words, Helper.within_cons (by decide), hcompare]
      cases c <;> rfl
  | range =>
    cases x with
    | print => exact iff_of_false id nofun
    | range => exact iff_of_true (mem_singleton_self _) rfl
    | contains => exact iff_of_false (not_freeIn (by decide)) nofun

theorem BinaryOp.words_getLast? (h : op.WellFormed) : op.words.getLast? ≠ some ("." : Text) := by
  cases op with
  | arithmetic symbol =>
    have hquiet := quiet_of_category (congrArg Lexeme.category h) (by decide)
    simpa [BinaryOp.words] using (quiet_iff.mp hquiet).2.2
  | compare negated c => cases negated <;> cases c <;> decide
  | _ => decide

/-! ## Lines -/

def lead? (words : List Text) : Option Text :=
  (words.dropWhile fun w => ofText w = .attributeWord).head?

def leadWords : List Text := ["print", "for", "import", "from"]

def Helper.AskedBy (words : List Text) : Helper → Prop
  | print => lead? words = some ("print" : Text)
  | range => (".." : Text) ∈ words
  | contains => lead? words ≠ some ("import" : Text) ∧ lead? words ≠ some ("from" : Text) ∧
    ∃ before after, words = before ++ ("in" : Text) :: after ∧ before.getLast? ≠ some ("." : Text) ∧
      (lead? words = some ("for" : Text) → ("in" : Text) ∈ before)

theorem lead?_cons (h : ofText w = c) (hc : c ≠ .attributeWord) (ws : List Text) :
    lead? (w :: ws) = some w := by
  rw [lead?, dropWhile_cons_of_neg (by simpa [h] using hc)]
  rfl

theorem Keyword.category_ofText (h : k.text? = some w) : ofText w = k.category := by
  rw [ofText, Lexeme.ofText_text h]
  rfl

theorem not_mem_leadWords (h : ofText w = c) (hc : c ≠ .statement ∧ c ≠ .libraryWord) : w ∉ leadWords := by
  have hall : ∀ v ∈ leadWords, ∃ k : Keyword, k.text? = some v ∧
      (k.category = .statement ∨ k.category = .libraryWord) := by
    refine forall_mem_cons.mpr ⟨⟨.statement .printWord, rfl, .inl rfl⟩, ?_⟩
    refine forall_mem_cons.mpr ⟨⟨.statement .forWord, rfl, .inl rfl⟩, ?_⟩
    refine forall_mem_cons.mpr ⟨⟨.libraryWord .importWord, rfl, .inr rfl⟩, ?_⟩
    exact forall_mem_singleton.mpr ⟨.libraryWord .fromWord, rfl, .inr rfl⟩
  intro hw
  obtain ⟨k, hk, hcategory⟩ := hall w hw
  rw [category_ofText hk] at h
  rcases hcategory with hcategory | hcategory
  · exact hc.1 (h.symm.trans hcategory)
  · exact hc.2 (h.symm.trans hcategory)

/-- A word that starts a line and makes no difference to what the line asks for. -/
structure Text.Leads (w : Text) : Prop where
  quiet : Quiet w
  ordinary : ofText w ≠ .attributeWord
  lead : w ∉ leadWords

theorem Text.leads_of_isInert (h : (ofText w).isInert) : w.Leads := by
  have hc : ofText w ≠ .attributeWord ∧ ofText w ≠ .statement ∧
      ofText w ≠ .libraryWord := by
    revert h
    cases ofText w <;> decide
  exact ⟨quiet_of_isInert h, hc.1, not_mem_leadWords rfl hc.2⟩

theorem Keyword.leads (h : k.text? = some w) (hk : k.category.isInert) : w.Leads := by
  refine leads_of_isInert ?_
  rw [category_ofText h]
  exact hk

theorem StatementWord.leads {w : StatementWord} (h : w ≠ .printWord ∧ w ≠ .forWord) : w.text.Leads where
  quiet := by cases w <;> decide
  ordinary := by
    rw [category_ofText (k := .statement w) rfl]
    nofun
  lead := by
    cases w with
    | printWord => exact absurd rfl h.1
    | forWord => exact absurd rfl h.2
    | _ => decide

namespace Helper

variable {ws us : List Text} {x : Helper}

theorem askedBy_iff (h : ∀ w ∈ leadWords, lead? ws ≠ some w) : x.AskedBy ws ↔ x.Within ws := by
  cases x with
  | print => exact iff_of_false (h "print" (by decide)) id
  | range => rfl
  | contains =>
    constructor
    · rintro ⟨-, -, before, after, hsplit, hdot, -⟩
      exact ⟨before, after, hsplit, hdot⟩
    · rintro ⟨before, after, hsplit, hdot⟩
      exact ⟨h "import" (by decide), h "from" (by decide), before, after, hsplit, hdot,
        fun hfor => absurd hfor (h "for" (by decide))⟩

theorem askedBy_leads (hw : w.Leads) : x.AskedBy (w :: ws) ↔ x.Within ws := by
  rw [askedBy_iff, within_cons hw.quiet]
  intro v hv hvw
  rw [lead?_cons rfl hw.ordinary] at hvw
  exact hw.lead (Option.some.inj hvw ▸ hv)

theorem not_askedBy_nil : ¬ x.AskedBy [] := by
  rw [askedBy_iff (by decide)]
  exact not_within_nil

theorem askedBy_print : x.AskedBy (("print" : Text) :: ws) ↔ x = .print ∨ x.Within ws := by
  have hlead : lead? (("print" : Text) :: ws) = some ("print" : Text) :=
    lead?_cons (category_ofText (k := .statement .printWord) rfl) (by decide) ws
  cases x with
  | print => exact iff_of_true hlead (.inl rfl)
  | range =>
    have hne : (".." : Text) ≠ "print" := by decide
    simp [Within, AskedBy, hne]
  | contains =>
    have hne : ∀ w ∈ (["import", "from", "for"] : List Text), some ("print" : Text) ≠ some w := by decide
    have hfree : FreeIn (("print" : Text) :: ws) ↔ FreeIn ws := within_cons (x := .contains) (by decide)
    rw [or_iff_right nofun, Within, ← hfree]
    simp [AskedBy, hlead, FreeIn, hne]

theorem not_askedBy_library {k : LibraryWord} (hrange : (".." : Text) ∉ ws) : ¬ x.AskedBy (k.text :: ws) := by
  have hlead : lead? (k.text :: ws) = some k.text :=
    lead?_cons (category_ofText (k := .libraryWord k) rfl) nofun ws
  cases x with
  | print =>
    rw [AskedBy, hlead]
    cases k <;> decide
  | range =>
    rw [AskedBy, mem_cons, not_or]
    exact ⟨by cases k <;> decide, hrange⟩
  | contains =>
    rw [AskedBy, hlead]
    rintro ⟨himport, hfrom, -⟩
    cases k with
    | importWord => exact himport rfl
    | fromWord => exact hfrom rfl

theorem freeIn_behind {front back : List Text} (hno : ("in" : Text) ∉ front) :
    (∃ before after, front ++ ("in" : Text) :: back = before ++ ("in" : Text) :: after ∧
      before.getLast? ≠ some ("." : Text) ∧ ("in" : Text) ∈ before) ↔ FreeIn back := by
  constructor
  · rintro ⟨before, after, hsplit, hdot, hin⟩
    rcases append_eq_append_iff.mp hsplit with ⟨middle, rfl, hback⟩ | ⟨middle, rfl, -⟩
    · cases middle with
      | nil => exact absurd (by simpa using hin) hno
      | cons w middle =>
        refine ⟨middle, after, (cons.inj hback).2, fun hlast => hdot ?_⟩
        rw [getLast?_append, getLast?_cons, hlast]
        rfl
    · exact absurd (mem_append_left _ hin) hno
  · rintro ⟨before, after, rfl, hdot⟩
    refine ⟨front ++ ("in" : Text) :: before, after, by simp, ?_, by simp⟩
    rw [getLast?_append, getLast?_cons]
    cases hlast : before.getLast? with
    | none => exact fun hin => absurd (Option.some.inj hin) (by decide)
    | some w => rw [hlast] at hdot; exact hdot

/-- The `in` of a loop header does not count. -/
theorem askedBy_for (hquiet : ∀ w ∈ ws, Quiet w) :
    x.AskedBy (("for" : Text) :: (ws ++ ("in" : Text) :: us)) ↔ x.Within us := by
  have hlead : ∀ ws, lead? (("for" : Text) :: ws) = some ("for" : Text) :=
    lead?_cons (category_ofText (k := .statement .forWord) rfl) (by decide)
  cases x with
  | print =>
    rw [AskedBy, hlead]
    exact iff_of_false (by decide) id
  | range =>
    have hno : (".." : Text) ∉ ws := fun h => (quiet_iff.mp (hquiet _ h)).2.1 rfl
    have hne : (".." : Text) ≠ "for" ∧ (".." : Text) ≠ "in" := by decide
    simp [AskedBy, Within, hno, hne]
  | contains =>
    have hno : ("in" : Text) ∉ ("for" : Text) :: ws := by
      rw [mem_cons, not_or]
      exact ⟨by decide, fun h => (quiet_iff.mp (hquiet _ h)).1 rfl⟩
    rw [Within, ← freeIn_behind hno, AskedBy, hlead]
    have hother : ∀ w ∈ (["import", "from"] : List Text), some ("for" : Text) ≠ some w := by decide
    simp [hother]

theorem askedBy_attribute (hw : ofText w = .attributeWord) (ws : List Text) (x : Helper) :
    x.AskedBy (w :: ws) ↔ x.AskedBy ws := by
  obtain ⟨hin, hrange, hdot⟩ := quiet_iff.mp (quiet_of_category hw (by decide))
  have hlead : lead? (w :: ws) = lead? ws := by
    rw [lead?, lead?, dropWhile_cons_of_pos (by simpa using hw)]
  cases x with
  | print => rw [AskedBy, AskedBy, hlead]
  | range => simp [AskedBy, hrange.symm]
  | contains =>
    rw [AskedBy, AskedBy, hlead]
    refine and_congr_right fun _ => and_congr_right fun _ => ?_
    constructor
    · rintro ⟨before, after, hsplit, hlast, hfor⟩
      cases before with
      | nil => exact absurd (cons.inj hsplit).1 hin
      | cons v before =>
        obtain ⟨rfl, rfl⟩ := cons.inj hsplit
        refine ⟨before, after, rfl, fun hbefore => hlast ?_, fun h => ?_⟩
        · rw [getLast?_cons, hbefore]
          rfl
        · exact (mem_cons.mp (hfor h)).resolve_left hin.symm
    · rintro ⟨before, after, rfl, hlast, hfor⟩
      refine ⟨w :: before, after, rfl, ?_, fun h => mem_cons_of_mem _ (hfor h)⟩
      rw [getLast?_cons]
      cases hbefore : before.getLast? with
      | none => simpa using hdot
      | some v => rw [hbefore] at hlast; exact hlast

/-- A colon at the end asks for nothing. -/
theorem askedBy_colon : x.AskedBy (ws ++ [(":" : Text)]) ↔ x.AskedBy ws := by
  have hcolon : (":" : Text).Leads := ⟨by decide, by decide, by decide⟩
  induction ws with
  | nil => exact iff_of_false (fun h => not_within_nil ((askedBy_leads hcolon).mp h)) not_askedBy_nil
  | cons w ws ih =>
    by_cases hw : ofText w = .attributeWord
    · rw [cons_append, askedBy_attribute hw, askedBy_attribute hw]
      exact ih
    have hlead : lead? (w :: (ws ++ [(":" : Text)])) = lead? (w :: ws) := by
      rw [lead?_cons rfl hw, lead?_cons rfl hw]
    cases x with
    | print => rw [cons_append, AskedBy, AskedBy, hlead]
    | range =>
      have hne : (".." : Text) ≠ ":" := by decide
      simp [AskedBy, hne]
    | contains =>
      rw [cons_append, AskedBy, AskedBy, hlead]
      refine and_congr_right fun _ => and_congr_right fun _ => ?_
      constructor
      · rintro ⟨before, after, hsplit, hdot, hfor⟩
        rcases eq_nil_or_concat after with rfl | ⟨after, last, rfl⟩
        · rw [← cons_append] at hsplit
          exact absurd (cons.inj (append_inj' hsplit rfl).2).1 (by decide)
        · rw [concat_eq_append, ← cons_append, ← cons_append, ← append_assoc] at hsplit
          exact ⟨before, after, (append_inj' hsplit rfl).1, hdot, hfor⟩
      · rintro ⟨before, after, hsplit, hdot, hfor⟩
        refine ⟨before, after ++ [(":" : Text)], ?_, hdot, hfor⟩
        rw [← cons_append, hsplit, append_assoc, cons_append]

end Helper

end Offside
