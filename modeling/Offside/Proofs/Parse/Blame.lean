/-
Which token a parser blames, and what it does not look at.

A parser that rejects blames the token it has just read or the next one. Inside a line there is
always one, since the marker that ends the line is still ahead, and a parser which reads that goes
no further.
-/
import Offside.Proofs.Layout.Line
import Offside.Proofs.Parse.Coupling
import Offside.Proofs.Parse.Rewording

set_option autoImplicit false

namespace Offside

open List Token

variable {σ α β γ δ : Type}

/-! ## The judgement -/

/-- `m` run from `s` and `n` run from `φ s` end alike. Either both give a result, `V` relates the
results, and the states after them differ by `φ` again. Or both stop for the same reason, and if
they reject then with an error in `E`. -/
structure Agrees (φ : σ → σ) (E : ParseError → Prop) (m : EStateM Stop σ α) (n : EStateM Stop σ β) (s : σ)
    (V : α → β → σ → Prop) : Prop where
  result : ∀ a s', m s = .ok a s' → ∃ b, n (φ s) = .ok b (φ s') ∧ V a b s'
  stop : ∀ e s', m s = .error e s' → n (φ s) = .error e (φ s') ∧ ∀ err, e = .rejected err → E err

/-- `m` run from `s` and from `φ s` ends alike and with the same result. If it gives one then `Q`
holds of it. -/
abbrev Rejects (φ : σ → σ) (E : ParseError → Prop) (m : EStateM Stop σ α) (s : σ) (Q : α → σ → Prop) :
    Prop := Agrees φ E m m s fun a b s' => b = a ∧ Q a s'

variable {a : α} {s' : σ} {rest : List Token} {E : ParseError → Prop}
variable {b : β} {v : Violation} {e : ParseError}

namespace Agrees

variable {φ : σ → σ} {E : ParseError → Prop} {m : EStateM Stop σ α} {n : EStateM Stop σ β} {s : σ}
  {V : α → β → σ → Prop}

/-- Two programs agree step by step. -/
theorem seq {f : α → EStateM Stop σ γ} {g : β → EStateM Stop σ δ} {W : γ → δ → σ → Prop}
    (h : Agrees φ E m n s V) (hf : ∀ a b s', V a b s' → Agrees φ E (f a) (g b) s' W) :
    Agrees φ E (m >>= f) (n >>= g) s W where
  result := by
    intro c s'' hm
    obtain ⟨a, s', hx, hfa⟩ := bind_ok hm
    obtain ⟨b, hn, hV⟩ := h.result a s' hx
    obtain ⟨d, hg, hW⟩ := (hf a b s' hV).result c s'' hfa
    exact ⟨d, by rw [bind_of_ok g hn]; exact hg, hW⟩
  stop := by
    intro e s'' hm
    rcases bind_error hm with hx | ⟨a, s', hx, hfa⟩
    · obtain ⟨hn, hE⟩ := h.stop e s'' hx
      exact ⟨bind_of_error g hn, hE⟩
    · obtain ⟨b, hn, hV⟩ := h.result a s' hx
      obtain ⟨hg, hE⟩ := (hf a b s' hV).stop e s'' hfa
      exact ⟨by rw [bind_of_ok g hn]; exact hg, hE⟩

theorem congr {m' : EStateM Stop σ α} {n' : EStateM Stop σ β} (h : Agrees φ E m n s V) (hm : m' s' = m s)
    (hn : n' (φ s') = n (φ s)) : Agrees φ E m' n' s' V where
  result := by rw [hm, hn]; exact h.result
  stop := by rw [hm, hn]; exact h.stop

theorem of_eq (hm : m s = .ok a s') (hn : n (φ s) = .ok b (φ s')) (h : V a b s') : Agrees φ E m n s V where
  result := by
    intro a' s'' hm'
    rw [hm] at hm'
    cases hm'
    exact ⟨b, hn, h⟩
  stop := by
    intro e s'' hm'
    rw [hm] at hm'
    cases hm'

theorem pure (h : V a b s) :
    Agrees φ E (Pure.pure a : EStateM Stop σ α) (Pure.pure b : EStateM Stop σ β) s V := of_eq rfl rfl h

theorem throw (h : E e) : Agrees φ E (MonadExcept.throw (Stop.rejected e) : EStateM Stop σ α)
    (MonadExcept.throw (Stop.rejected e) : EStateM Stop σ β) s V where
  result := by
    intro a s' hm
    cases hm
  stop := by
    intro e' s' hm
    cases hm
    refine ⟨rfl, fun err herr => ?_⟩
    cases herr
    exact h

theorem of_violated (hm : m s = .error (.violated v) s') (hn : n (φ s) = .error (.violated v) (φ s')) :
    Agrees φ E m n s V where
  result := by
    intro a s'' hm'
    rw [hm] at hm'
    cases hm'
  stop := by
    intro e s'' hm'
    rw [hm] at hm'
    cases hm'
    refine ⟨hn, fun err herr => ?_⟩
    cases herr

theorem violated : Agrees φ E (MonadExcept.throw (Stop.violated v) : EStateM Stop σ α)
    (MonadExcept.throw (Stop.violated v) : EStateM Stop σ β) s V := of_violated rfl rfl

theorem ite {c : Prop} [Decidable c] {m' : EStateM Stop σ α} {n' : EStateM Stop σ β}
    (hpos : c → Agrees φ E m n s V) (hneg : ¬ c → Agrees φ E m' n' s V) :
    Agrees φ E (if c then m else m') (if c then n else n') s V :=
  ite_related (R := fun m n => Agrees φ E m n s V) Iff.rfl hpos hneg

theorem guard {c : Prop} [Decidable c] {f : Unit → EStateM Stop σ α} {g : Unit → EStateM Stop σ β} (he : c → E e)
    (h : ¬ c → Agrees φ E (f ()) (g ()) s V) : Agrees φ E (rejectIf c e f) (rejectIf c e g) s V :=
  ite (fun hc => seq (V := fun _ _ _ => False) (throw (he hc)) fun _ _ _ h => h.elim) h

theorem get {f : σ → EStateM Stop σ α} {g : σ → EStateM Stop σ β} (h : Agrees φ E (f s) (g (φ s)) s V) :
    Agrees φ E (MonadState.get >>= f) (MonadState.get >>= g) s V := ⟨h.result, h.stop⟩

theorem modify {j : σ → σ} {f : PUnit → EStateM Stop σ α} {g : PUnit → EStateM Stop σ β}
    (hj : j (φ s) = φ (j s)) (h : Agrees φ E (f ⟨⟩) (g ⟨⟩) (j s) V) :
    Agrees φ E (modifyThe σ j >>= f) (modifyThe σ j >>= g) s V := by
  refine seq (V := fun _ _ s' => s' = j s) (of_eq rfl (congrArg (EStateM.Result.ok _) hj) rfl) ?_
  rintro _ _ _ rfl
  exact h

end Agrees

namespace Rejects

variable {φ : σ → σ} {E : ParseError → Prop} {m : EStateM Stop σ α} {s : σ} {Q : α → σ → Prop}

theorem seq {f : α → EStateM Stop σ β} {g : α → EStateM Stop σ γ} {W : β → γ → σ → Prop}
    (h : Rejects φ E m s Q) (hf : ∀ a s', Q a s' → Agrees φ E (f a) (g a) s' W) :
    Agrees φ E (m >>= f) (m >>= g) s W := by
  refine Agrees.seq h ?_
  rintro a _ s' ⟨rfl, hQ⟩
  exact hf _ s' hQ

theorem of_eq (hm : m s = .ok a s') (hn : m (φ s) = .ok a (φ s')) (h : Q a s') :
    Rejects φ E m s Q := Agrees.of_eq hm hn ⟨rfl, h⟩

theorem pure (h : Q a s) : Rejects φ E (Pure.pure a : EStateM Stop σ α) s Q := of_eq rfl rfl h

end Rejects

/-! ## Lines -/

/-- The tokens of a line and the marker that ends it, with what comes after. The property `P` holds
of all of them but the text of a comment. -/
structure Line (P : Token → Prop) where
  words : List Token
  mark : Token
  below : List Token
  plain : ∀ t ∈ words, t.isMarker = false
  chain : words.IsChain Adjacent
  shown : ∀ t ∈ words, t.raw = false → P t
  isMarker : mark.isMarker
  markShown : P mark

namespace Line

variable {P : Token → Prop} {L : Line P} {r r' : Reader} {t : Token}

/-- The reader stands in the line or at its end, and no text of a comment is next. -/
def Ahead (L : Line P) (r : Reader) : Prop :=
  ∃ ts, ts <:+ L.words ∧ r.stream.rest = ts ++ L.mark :: L.below ∧ ∀ t ∈ ts.head?, t.raw = false

def Within (L : Line P) (t : Token) (r : Reader) : Prop :=
  ∃ ts, t :: ts <:+ L.words ∧ r.stream.rest = ts ++ L.mark :: L.below

/-- The reader has just read a token of the line or the marker that ends it. -/
structure Read (L : Line P) (t : Token) (r : Reader) : Prop where
  raw : t.raw = false
  shown : P t
  place : L.Within t r ∨ t = L.mark ∧ r.stream.rest = L.below

theorem Ahead.of_stream (h : L.Ahead r) (hstream : r'.stream = r.stream) : L.Ahead r' := by
  rw [Ahead, hstream]
  exact h

theorem Ahead.of_mark (h : r.stream.rest = L.mark :: L.below) : L.Ahead r :=
  ⟨[], nil_suffix, h, fun _ ht => nomatch ht⟩

/-- Inside a line there is a token ahead. -/
theorem Ahead.next (h : L.Ahead r) : ∃ t rest, r.stream.rest = t :: rest ∧ L.Read t (r.advance t rest) := by
  obtain ⟨ts, hsuffix, hrest, hraw⟩ := h
  rcases ts with _ | ⟨t, ts⟩
  · exact ⟨L.mark, L.below, hrest, raw_of_isMarker L.isMarker, L.markShown, .inr ⟨rfl, rfl⟩⟩
  · have ht := hraw t rfl
    refine ⟨t, ts ++ L.mark :: L.below, hrest, ht, ?_, .inl ⟨ts, hsuffix, rfl⟩⟩
    exact L.shown t (hsuffix.subset mem_cons_self) ht

theorem Ahead.read (h : L.Ahead r) (hrest : r.stream.rest = t :: rest) : L.Read t (r.advance t rest) := by
  obtain ⟨u, us, hus, hread⟩ := h.next
  rw [hrest] at hus
  obtain ⟨rfl, rfl⟩ := cons.inj hus
  exact hread

theorem Within.chain (h : L.Within t r) : ∃ ts, r.stream.rest = ts ++ L.mark :: L.below ∧
    (t :: ts).IsChain Adjacent ∧ t :: ts <:+ L.words := by
  obtain ⟨ts, hsuffix, hrest⟩ := h
  exact ⟨ts, hrest, L.chain.suffix hsuffix, hsuffix⟩

/-- A marker that is read is the one that ends the line. -/
theorem Read.of_marker (h : L.Read t r) (ht : t.isMarker) : t = L.mark ∧ r.stream.rest = L.below := by
  refine h.place.resolve_left ?_
  rintro ⟨ts, hsuffix, -⟩
  rw [L.plain t (hsuffix.subset mem_cons_self)] at ht
  cases ht

/-- Behind a word of code the line goes on. -/
theorem Read.ahead (h : L.Read t r) (ht : t.IsCode) : L.Ahead r := by
  rcases h.place with hwithin | ⟨rfl, -⟩
  · obtain ⟨ts, hrest, hchain, hsuffix⟩ := hwithin.chain
    refine ⟨ts, (suffix_cons t ts).trans hsuffix, hrest, fun u hu => ?_⟩
    rcases ts with _ | ⟨v, ts⟩
    · cases hu
    · cases hu
      rw [Bool.eq_false_iff]
      intro hraw
      rcases (isChain_cons_cons.mp hchain).1.raw hraw with hs | hm
      · rw [ht.sign] at hs
        cases hs
      · rw [ht.marker] at hm
        cases hm
  · have hmarker := ht.marker
    rw [L.isMarker] at hmarker
    cases hmarker

/-! ## Parsers that keep to the line -/

/-- From a place in the line, the parser comes back to one or blames a token of the line. -/
def Keeps (L : Line P) (p : Parse α) : Prop :=
  ∀ (g : Rewording) r, L.Ahead r → Rejects g.reader (ParseError.Concerns P) p r fun _ r' => L.Ahead r'

def KeepsFrom (L : Line P) (t : Token) (p : Parse α) : Prop :=
  ∀ (g : Rewording) r, L.Read t r → Rejects g.reader (ParseError.Concerns P) p r fun _ r' => L.Ahead r'

/-- Where the reader is in the line. The tokens of two runs are the same, as none of them is raw. -/
def Stands (L : Line P) (r : Reader) : Parse.Place → Prop
  | .ahead => L.Ahead r
  | .behind t u => u = t ∧ L.Read t r

end Line

variable {V : α → α → Reader → Prop}

namespace Parse

variable {P : Token → Prop} {L : Line P} {g : Rewording} {r : Reader} {t : Token}

/-! ## Single tokens -/

/-- Reading a token does not depend on what is reworded. -/
theorem next_rejects (wanted : Text) (hrest : r.stream.rest = t :: rest) (ht : t.raw = false) :
    Rejects g.reader E (next wanted) r fun a r' => a = t ∧ r' = r.advance t rest := by
  have hnext := g.next_eq wanted hrest
  rw [g.token_plain _ ht] at hnext
  exact Rejects.of_eq (next_eq wanted hrest) hnext ⟨rfl, rfl⟩

theorem pop_rejects (hrest : r.stream.rest = t :: rest) (ht : t.raw = false) :
    Rejects g.reader E pop r fun a r' => a = t ∧ r' = r.advance t rest := by
  have hpop := g.pop_eq hrest
  rw [g.token_plain _ ht] at hpop
  exact Rejects.of_eq (pop_eq hrest) hpop ⟨rfl, rfl⟩

theorem peek?_rejects (hrest : r.stream.rest = t :: rest) (ht : t.raw = false) :
    Rejects g.reader E peek? r fun o r' => o = some t ∧ r' = r := by
  have hpeek : peek? r = .ok (some t) r := by rw [peek?_eq, hrest]; rfl
  have hpeek' : peek? (g.reader r) = .ok (some t) (g.reader r) := by
    rw [peek?_eq, g.rest_reader hrest, g.token_plain _ ht]
    rfl
  exact Rejects.of_eq hpeek hpeek' ⟨rfl, rfl⟩

theorem atText_rejects (text : Text) (r : Reader) : Rejects g.reader E (atText text) r fun b r' => r' = r ∧
      (b → ∃ t rest, r.stream.rest = t :: rest ∧ t.is text) :=
  Rejects.of_eq (atText_eq text r) (g.atText_eq text r) ((atText_spec text r).of_ok (atText_eq text r))

theorem missingNext_rejects (wanted : Text) (hr : L.Ahead r) :
    Rejects g.reader (ParseError.Concerns P) (missingNext wanted) r fun e r' => e.Concerns P ∧ r' = r := by
  obtain ⟨t, rest, hrest, hread⟩ := hr.next
  refine (peek?_rejects hrest hread.raw).seq ?_
  rintro _ _ ⟨rfl, rfl⟩
  exact Rejects.pure ⟨ParseError.concerns_missing wanted hread.shown, rfl⟩

/-- Nor does a test of the next token. -/
theorem popWhen_agrees {test : Token → Bool} {f f' : Token → Parse α} {p p' : Parse α} (hr : L.Ahead r)
    (hf : ∀ t rest, test t → L.Read t (r.advance t rest) →
      Agrees g.reader E (f t) (f' t) (r.advance t rest) V) (hp : Agrees g.reader E p p' r V) :
    Agrees g.reader E (popWhen test f p) (popWhen test f' p') r V := by
  obtain ⟨t, rest, hrest, hread⟩ := hr.next
  have hrest' := g.rest_reader hrest
  rw [g.token_plain _ hread.raw] at hrest'
  cases ht : test t with
  | true =>
    refine (hf t rest ht hread).congr (popWhen_of_cons hrest ht) ?_
    rw [popWhen_of_cons hrest' ht, g.reader_advance, g.token_plain _ hread.raw]
  | false =>
    exact hp.congr (popWhen_of_not (by rw [hrest]; simpa using ht))
      (popWhen_of_not (by rw [hrest']; simpa using ht))

/-! ## Parsers -/

theorem bounded_agrees {p q : Nat → Parse α} (h : ∀ n, Agrees g.reader E (p n) (q n) r V) :
    Agrees g.reader E (bounded p) (bounded q) r V := by
  refine .get ?_
  rw [g.remaining_reader]
  exact h _

def keeping (L : Line P) : Coupling where
  Holds _ place p q := ∀ (g : Rewording) r, L.Stands r place →
    Agrees g.reader (ParseError.Concerns P) p q r fun a b r' => b = a ∧ L.Ahead r'
  grows := False
  lasts := False
  mono _ h := h
  pure a _ _ hr := .pure ⟨rfl, hr⟩
  bind hp hf g r hr := (hp g r hr).seq fun a b r' h => by
    obtain ⟨rfl, hr'⟩ := h
    exact hf _ g r' hr'
  next wanted _ _ h g r hr := by
    obtain ⟨t, rest, hrest, hread⟩ := Line.Ahead.next hr
    refine (next_rejects wanted hrest hread.raw).seq ?_
    rintro _ _ ⟨rfl, rfl⟩
    exact h (.refl _) g _ ⟨rfl, hread⟩
  popWhen _ _ hf hp g r hr :=
    popWhen_agrees hr (fun t rest ht hread => hf (.refl t) ht g _ ⟨rfl, hread⟩) (hp g r hr)
  look _ h g r hr := (atText_rejects _ r).seq fun b r' hb => by
    obtain ⟨rfl, -⟩ := hb
    exact h b g _ hr
  atLineEnd g r hr := Rejects.of_eq (atLineEnd_eq r) (g.atLineEnd_eq r) hr
  require h g r hr := by
    have hrequire : ∀ r, require h r = .ok () { r with helpers := r.helpers.require h } := fun _ => rfl
    exact Rejects.of_eq (hrequire r) (hrequire (g.reader r)) (Line.Ahead.of_stream hr rfl)
  missing wanted _ hf g r hr := (missingNext_rejects wanted hr).seq fun _ _ he => .throw (hf he.1)
  bounded h g r hr :=
    bounded_agrees fun n => h _ n n (Nat.le_refl _) (Nat.le_refl n) (.inl rfl) False.elim g r hr
  stop _ _ _ _ := .violated
  more h := h.elim
  code ht hp g r hr := hp g r (hr.2.ahead (ht hr.2.raw))
  check he hp hf g r hr := by
    obtain ⟨rfl, hread⟩ := hr
    refine (hp g r ⟨rfl, hread⟩).seq ?_
    rintro a _ r' ⟨rfl, hr'⟩
    split
    · exact .throw (he hread.shown)
    · exact hf _ g r' hr'
  reject he g r hr := by
    obtain ⟨rfl, hread⟩ := hr
    exact .throw (he hread.shown)

/-- What is missing is blamed on a token of the line. -/
theorem expect_keeps {text : Text} (hcode : CodeText text) : L.Keeps (expect text) :=
  ((keeping L).expect (k := 0) hcode).holds

theorem expressionList_keeps : L.Keeps expressionList := (keeping L).expressionList (k := 0)

/-- Every form keeps to its line. -/
theorem form_keeps (t : Token) (v : View) : L.KeepsFrom t (form t.lexeme t v) :=
  fun g r hr => (keeping L).form (k := 0) (.refl t) v g r ⟨rfl, hr⟩

/-! ## Comments -/

/-- A comment is read alike except for its text. -/
theorem lineComment_agrees (hsign : t.isCommentSign) (hr : L.Within t r) :
    Agrees g.reader E (lineComment t) (lineComment t) r fun a b r' =>
      Fragment.silent b.fragment = Fragment.silent a.fragment ∧ r'.stream.rest = L.mark :: L.below := by
  obtain ⟨ts, hrest, hchain, hsuffix⟩ := hr.chain
  rcases ts with _ | ⟨u, ts⟩
  · have hmark : L.mark.raw = false := raw_of_isMarker L.isMarker
    have htext : Rejects g.reader E commentText r fun a r' => a = [] ∧ r' = r := by
      refine (peek?_rejects hrest hmark).seq ?_
      rintro _ _ ⟨rfl, rfl⟩
      dsimp only
      rw [hmark, if_neg Bool.false_ne_true]
      exact Rejects.pure ⟨rfl, rfl⟩
    refine htext.seq ?_
    rintro _ _ ⟨rfl, rfl⟩
    exact .pure ⟨rfl, hrest⟩
  · obtain ⟨hu, hts⟩ := isChain_cons_cons.mp hchain
    have hplain : ∀ v ∈ u :: ts, v.isMarker = false :=
      fun v hv => L.plain v (hsuffix.subset (mem_cons_of_mem _ hv))
    have hraw : u.raw := by
      refine (hu.comment hsign).resolve_right fun hm => ?_
      rw [hplain u mem_cons_self] at hm
      cases hm
    -- Behind the text of a comment nothing but a marker can stand.
    obtain rfl : ts = [] := by
      rcases ts with _ | ⟨v, ts⟩
      · rfl
      · have hm := (isChain_cons_cons.mp hts).1.text hraw
        rw [hplain v (by simp)] at hm
        cases hm
    have hrest : r.stream.rest = u :: L.mark :: L.below := hrest
    have htext : Agrees g.reader E commentText commentText r fun a b r' =>
        b.isEmpty = a.isEmpty ∧ r'.stream.rest = L.mark :: L.below := by
      have hahead : (r.advance u (L.mark :: L.below)).stream.rest = L.mark :: L.below := rfl
      refine .of_eq (a := u.text) (b := (g.token r.stream.seen.length u).text) ?_ ?_
        ⟨g.isEmpty_token _ u, hahead⟩
      · rw [commentText, bind_of_ok _ (peek?_eq r), hrest, head?_cons]
        dsimp only
        rw [hraw, if_pos rfl, bind_of_ok _ (pop_eq hrest)]
        rfl
      · rw [commentText, bind_of_ok _ (peek?_eq _), g.rest_reader hrest, head?_cons]
        dsimp only
        rw [g.raw_token, hraw, if_pos rfl, bind_of_ok _ (g.pop_eq hrest)]
        rfl
    refine htext.seq ?_
    rintro text text' r' ⟨hempty, hr'⟩
    exact .pure ⟨LineComment.silent_fragment hempty, hr'⟩

theorem trailingComment_agrees (hr : L.Ahead r) :
    Agrees g.reader (ParseError.Concerns P) trailingComment trailingComment r fun a b r' =>
      Fragment.silent (LineComment.trailing b) = Fragment.silent (LineComment.trailing a) ∧ L.Ahead r' := by
  obtain ⟨t, rest, hrest, hread⟩ := hr.next
  refine (peek?_rejects hrest hread.raw).seq ?_
  rintro _ r ⟨rfl, rfl⟩
  dsimp only
  by_cases hsign : t.isCommentSign
  · rw [if_pos hsign]
    have hwithin : L.Within t (r.advance t rest) := by
      refine hread.place.resolve_right fun hmark => ?_
      have hmarker := isCommentSign_of_isMarker L.isMarker
      rw [← hmark.1, hsign] at hmarker
      cases hmarker
    refine (pop_rejects hrest hread.raw).seq ?_
    rintro _ _ ⟨rfl, rfl⟩
    refine (lineComment_agrees hsign hwithin).seq ?_
    rintro comment comment' r' ⟨hsilent, hr'⟩
    exact .pure ⟨congrArg (List.cons _) hsilent, .of_mark hr'⟩
  · rw [if_neg hsign]
    exact .pure ⟨rfl, hr⟩

end Parse

end Offside
