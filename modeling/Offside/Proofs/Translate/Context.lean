/-
What a clause asks of the scopes, and what it leaves for the next one.

`Scopes.Admits` has in one place which scopes a word is admitted in, and every clause keeps to it.
The scope closed last matters too, so the second half follows how it is forgotten.
-/
import Offside.Proofs.Translate.Enclosure

set_option autoImplicit false

namespace Offside

/-! ## The rules -/

variable {l : Lexeme} {sc : Scopes Tag}
variable {t : Token} {ts : List Token}

namespace Scopes

def Admits (sc : Scopes Tag) : Lexeme → Prop
  | .keyword (.statement .breakWord) => sc.contains [.forLoop, .whileLoop] = true
  | .keyword (.statement .continueWord) => sc.contains [.forLoop, .whileLoop] = true
  | .keyword (.statement .returnWord) => sc.contains [.function] = true
  | .keyword (.conditional .caseWord) => sc.top? = some .switchBlock
  | .keyword (.conditional .defaultWord) => sc.top? = some .switchBlock
  | .keyword (.functionWord .method) => sc.contains [.userType, .template] = true
  | .shape .templateType => sc.contains [.template] = true
  | .keyword (.conditional .elseWord) => sc.previous = some .ifBlock
  | .keyword (.exceptionWord .exceptWord) => sc.previous = some .tryBlock ∨ sc.previous = some .exceptBlock
  | .keyword (.exceptionWord .finallyWord) => sc.previous = some .tryBlock ∨ sc.previous = some .exceptBlock
  | _ => True

/-- The scopes admit the first word behind the attributes. An attribute leaves nothing to continue. -/
def Leads (sc : Scopes Tag) : List Token → Prop
  | [] => True
  | t :: ts => if t.category = .attributeWord then sc.forget.Leads ts else sc.Admits t.lexeme

/-- An attribute leads to what comes behind it. -/
theorem leads_of_attribute (ht : t.category = .attributeWord) : sc.Leads (t :: ts) ↔ sc.forget.Leads ts := by
  rw [Leads, if_pos ht]

theorem leads_of_admits (ts : List Token) (ht : t.category ≠ .attributeWord) :
    sc.Leads (t :: ts) ↔ sc.Admits t.lexeme := by
  rw [Leads, if_neg ht]

theorem Leads.of_append {us : List Token} (h : sc.Leads (ts ++ us)) : sc.Leads ts := by
  induction ts generalizing sc with
  | nil => trivial
  | cons t ts ih =>
    by_cases ht : t.category = .attributeWord
    · rw [List.cons_append, leads_of_attribute ht] at h
      exact (leads_of_attribute ht).mpr (ih h)
    · rw [List.cons_append, leads_of_admits _ ht] at h
      exact (leads_of_admits _ ht).mpr h

end Scopes

def Tag.continued : List Tag := [.ifBlock, .tryBlock, .exceptBlock]

def Clause.isQuiet : Clause → Bool
  | .start | .newline _ | .lineComment _ => true
  | _ => false

/-- What can be continued after the clause could be continued before it, or was closed by it. -/
def Scopes.Continues (sc : Scopes Tag) (c : Clause) (sc' : Scopes Tag) : Prop :=
  ∀ tag ∈ Tag.continued, sc'.previous = some tag →
    (c.isQuiet ∧ sc.previous = some tag) ∨ sc.tags = tag :: sc'.tags

theorem Lexeme.category_eq_attributeWord_iff : l.category = .attributeWord ↔ l = .keyword .attributeWord := by
  constructor
  · intro h
    cases l with
    | plain => cases h
    | shape s => cases s <;> cases h
    | keyword k =>
      cases k with
      | attributeWord => rfl
      | marker m => cases m <;> cases h
      | _ => cases h
  · rintro rfl
    rfl

namespace Translate

variable {s : Session} {tags : List Tag}

/-! ## What is asked -/

theorem labels_admits (t : Token) (s : Session) :
    Ensures (labels t) s fun _ _ => s.scopes.top? = some .switchBlock := by
  refine .modify (.get (.seq (P := fun _ _ =>
    s.scopes.top? = some .switchBlock) ?_ fun _ _ h => .pure h))
  rw [labelsIn_succ]
  exact .get (.guard fun htop _ _ _ => not_not.mp htop)

/-- What can be parsed as a form is admitted. -/
theorem form_admits (t : Token) (s : Session) (r : Reader) (hcomplaint : complaint? l s.scopes.previous = none)
    (hcase : l ≠ .keyword (.conditional .caseWord)) (hdefault : l ≠ .keyword (.conditional .defaultWord)) :
    Ensures (Parse.form l t s.view) r fun _ _ => s.scopes.Admits l := by
  have hyes : ∀ {b : Bool}, ¬ (!b) → b := by decide
  unfold Scopes.Admits
  split
  case h_1 | h_2 | h_3 =>
    rw [Parse.form, Parse.statementForm]
    exact .guard fun h _ _ _ => hyes h
  · exact absurd rfl hcase
  · exact absurd rfl hdefault
  case h_6 | h_7 =>
    rw [Parse.form]
    exact .guard fun h _ _ _ => hyes h
  · exact fun _ _ _ => by simpa [complaint?] using hcomplaint
  case h_9 | h_10 => exact fun _ _ _ => by simpa [complaint?, takesHandler, or_iff_not_imp_left] using hcomplaint
  · exact fun _ _ _ => trivial

/-- So is what is not complained of. -/
theorem continuation_admits (t : Token) (s : Session) (hcase : l ≠ .keyword (.conditional .caseWord))
    (hdefault : l ≠ .keyword (.conditional .defaultWord)) :
    Ensures (continuation l t) s fun _ _ => s.scopes.Admits l := by
  refine .get ?_
  split
  · exact .throw
  · next hcomplaint =>
    refine .modify (.get (.parse (form_admits t s _ hcomplaint hcase hdefault) ?_))
    exact fun _ _ h _ _ _ => h

/-- Every clause starts with a word that is admitted. -/
theorem clauseIn_leads (n : Nat) (t : Token) (s : Session) :
    Ensures (clauseIn n t) s fun _ _ => s.scopes.Leads (t :: s.stream.rest) := by
  induction n generalizing t s with
  | zero => exact .throw
  | succ n ih =>
    refine .clauseIn fun first trace _ => ?_
    have hleads : t.lexeme ≠ .keyword .attributeWord → s.scopes.Admits t.lexeme →
        s.scopes.Leads (t :: s.stream.rest) := by
      intro hne hadmits
      refine (Scopes.leads_of_admits _ fun hcategory => hne ?_).mpr hadmits
      exact Lexeme.category_eq_attributeWord_iff.mp hcategory
    unfold clauseFrom
    split
    case h_1 hlex | h_2 hlex | h_4 hlex => exact fun _ _ _ => hleads (by simp [hlex]) (by rw [hlex]; trivial)
    · next hlex =>
      have hattribute : t.category = .attributeWord := by rw [Token.category, hlex]; rfl
      refine .modify (.modify ?_)
      refine .parse (.of_safe (Parse.atText_spec _ _)) ?_
      rintro (_ | _) _ ⟨rfl, hcolon⟩
      · refine .parse (.of_safe (Parse.next_spec _ _)) ?_
        intro after r hread
        refine .guard fun _ => .seq (ih after _) fun _ _ h => .pure ?_
        have hrest : s.stream.rest = after :: r.stream.rest := hread.1
        rw [Scopes.leads_of_attribute hattribute, hrest]
        exact h
      · -- A colon is admitted everywhere.
        obtain ⟨u, rest, hrest, hu⟩ := hcolon rfl
        have hrest : s.stream.rest = u :: rest := hrest
        have hsign : u.lexeme = .shape .punctuation := by
          obtain ⟨hraw, htext⟩ := Token.is_iff.mp hu
          rw [Token.lexeme_eq hraw, htext, Lexeme.ofText_sign (by decide)]
        refine fun _ _ _ => ?_
        rw [Scopes.leads_of_attribute hattribute, hrest, Scopes.leads_of_admits, hsign]
        · trivial
        · rw [Token.category, hsign]
          decide
    case h_5 hlex | h_6 hlex =>
      refine .modify ((labels_admits t _).mono fun _ _ hadmits => ?_)
      exact hleads (by simp [hlex]) (by rw [hlex]; exact hadmits)
    · next hattribute _ hcase hdefault =>
      refine .modify ((continuation_admits t _ hcase hdefault).mono fun _ _ hadmits => ?_)
      exact hleads hattribute hadmits

theorem clauseIn_raw (n : Nat) (t : Token) (s : Session) : Ensures (clauseIn n t) s fun _ _ => t.raw = false := by
  cases n with
  | zero => exact .throw
  | succ n => exact .clauseIn fun _ _ hraw _ _ _ => hraw

/-! ## What is left -/

end Translate

theorem Enclosure.continues_closed (e : Enclosure) (c : Clause) : e.scopes.Continues c e.closed.scopes := by
  intro tag _ hprevious
  obtain ⟨⟨tags, previous⟩, generics⟩ := e
  cases tags with
  | nil => cases hprevious
  | cons top tags => exact .inr (by rw [Option.some.inj hprevious]; rfl)

/-- What can be continued after a clause could be continued before it, or was closed by it. -/
theorem Clause.continues (c : Clause) (e : Enclosure) : e.scopes.Continues c (c.effect e).scopes := by
  have hnone : ∀ {e : Enclosure} {c : Clause} {sc : Scopes Tag}, sc.previous = none → e.scopes.Continues c sc := by
    intro e c sc hsc tag _ hprevious
    rw [hsc] at hprevious
    cases hprevious
  have hpassed : ∀ {e : Enclosure} {c : Clause} {tag : Tag}, tag ∉ Tag.continued →
      e.scopes.Continues c (e.passed tag).scopes := by
    intro e c tag htag top htop hprevious
    exact absurd (Option.some.inj hprevious ▸ htop) htag
  induction c generalizing e with
  | start => exact fun tag _ hprevious => .inl ⟨rfl, hprevious⟩
  | newline => exact fun tag _ hprevious => .inl ⟨rfl, hprevious⟩
  | lineComment => exact fun tag _ hprevious => .inl ⟨rfl, hprevious⟩
  | dedent => exact e.continues_closed _
  | blockComment => exact hpassed (by decide)
  | passthrough => exact hpassed (by decide)
  | simple statement comment ending =>
    cases ending with
    | closing => exact e.continues_closed _
    | _ => exact hnone rfl
  | block => exact hnone rfl
  | labels => exact hnone rfl
  | attributed word c ih =>
    intro tag htag hprevious
    -- Behind an attribute nothing is left to continue from before.
    rcases ih e.forget tag htag hprevious with ⟨-, hforget⟩ | htags
    · cases hforget
    · exact .inr htags

end Offside
