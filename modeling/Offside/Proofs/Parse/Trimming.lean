/-
What is never read does not matter.

A parser looks at most one token ahead, so all after that can be taken away. `Trims` says so of two
programs that differ in their budgets: the first has the smaller one and may run out of it.
-/
import Offside.Proofs.Parse.Coupling

set_option autoImplicit false

open List

namespace Offside

/-! ## The judgement -/

/-- A state that has tokens ahead of it. -/
class Ahead (σ : Type) where
  ahead : σ → List Token
  /-- The same state with other tokens ahead. -/
  cut : σ → List Token → σ

export Ahead (ahead cut)

instance : Ahead Reader where
  ahead r := r.stream.rest
  cut r ts := { r with stream := { r.stream with rest := ts } }

/-- How far a program looks. -/
inductive Reach
  /-- One token further than it reads. -/
  | looks
  /-- No further than it reads. -/
  | exact

variable {σ α β : Type}

def Violates (p : EStateM Stop σ α) (s : σ) : Prop := ∃ v s', p s = .error (.violated v) s'

variable {s : σ} {c : Prop}

theorem Violates.bind {p : EStateM Stop σ α} (h : Violates p s) (f : α → EStateM Stop σ β) :
    Violates (p >>= f) s := by
  obtain ⟨v, s', hp⟩ := h
  have hb : (p >>= f) s = EStateM.bind p f s := rfl
  exact ⟨v, s', by rw [hb, EStateM.bind, hp]⟩

variable [Ahead σ]

/-- A run of `q` with `after` at the end of what is ahead is one of `p` without. -/
structure Trims (k : Reach) (p q : EStateM Stop σ α) : Prop where
  suffix : ∀ {s a s'}, q s = .ok a s' → ahead s' <:+ ahead s
  agrees : ∀ {s a s' us vs after}, q s = .ok a s' → ahead s = us ++ after → ahead s' = vs ++ after →
    after ≠ [] → (k = .looks → vs ≠ []) → p (cut s us) = .ok a (cut s' vs) ∨ Violates p (cut s us)

def Takes (q : EStateM Stop σ α) : Prop :=
  ∀ {s a s'}, q s = .ok a s' → ahead s ≠ [] → (ahead s').length < (ahead s).length

variable {b : β} {s' : σ} {e : Stop} {p : Parse Token}

namespace Trims

variable {k l : Reach} {p q : EStateM Stop σ α} {f g : α → EStateM Stop σ β}

theorem looks (h : Trims k p q) : Trims .looks p q where
  suffix := h.suffix
  agrees := fun hq hs hs' hafter hvs => h.agrees hq hs hs' hafter fun _ => hvs rfl

theorem pure (a : α) : Trims k (Pure.pure a : EStateM Stop σ α) (Pure.pure a) where
  suffix := fun hq => by
    cases hq
    exact suffix_rfl
  agrees := fun hq hs hs' hafter _ => by
    cases hq
    obtain rfl := append_cancel_right (hs.symm.trans hs')
    exact .inl rfl

theorem never (h : ∀ s a s', q s ≠ .ok a s') : Trims k p q where
  suffix := fun hq => absurd hq (h _ _ _)
  agrees := fun hq => absurd hq (h _ _ _)

theorem throw : Trims k p (MonadExcept.throw e) := never fun _ _ _ hq => nomatch hq

theorem violated {p' : EStateM Stop σ α} (h : Trims k p q) (hp' : ∀ s, Violates p' s) : Trims k p' q where
  suffix := h.suffix
  agrees := fun _ _ _ _ _ => .inr (hp' _)

theorem agrees_bind {us vs after : List Token} (h : Trims k p q) (hf : ∀ a, Trims l (f a) (g a))
    (hq : (q >>= g) s = .ok b s') (hs : ahead s = us ++ after) (hs' : ahead s' = vs ++ after) (hafter : after ≠ [])
    (hvs : l = .looks → vs ≠ []) (hbetween : k = .looks → ∀ a s₁, g a s₁ = .ok b s' → ahead s₁ ≠ after) :
    (p >>= f) (cut s us) = .ok b (cut s' vs) ∨ Violates (p >>= f) (cut s us) := by
  obtain ⟨a, s₁, hx, hg⟩ := bind_ok hq
  obtain ⟨ws, hws⟩ := (hf a).suffix hg
  rw [hs', ← append_assoc] at hws
  have hmiddle : k = .looks → ws ++ vs ≠ [] := by
    intro hk hnil
    refine hbetween hk a s₁ hg ?_
    rw [← hws, hnil, nil_append]
  rcases h.agrees hx hs hws.symm hafter hmiddle with hp | hp
  · rw [bind_of_ok f hp]
    refine ((hf a).agrees hg hws.symm hs' hafter hvs).imp_right ?_
    rintro ⟨v, t, ht⟩
    exact ⟨v, t, by rw [bind_of_ok f hp]; exact ht⟩
  · exact .inr (hp.bind f)

theorem suffix_bind (h : Trims k p q) (hf : ∀ a, Trims l (f a) (g a)) (hq : (q >>= g) s = .ok b s') :
    ahead s' <:+ ahead s := by
  obtain ⟨a, s₁, hx, hg⟩ := bind_ok hq
  exact ((hf a).suffix hg).trans (h.suffix hx)

/-- A sequence looks ahead as far as its last part. -/
theorem bind (h : Trims k p q) (hf : ∀ a, Trims k (f a) (g a)) : Trims k (p >>= f) (q >>= g) where
  suffix := h.suffix_bind hf
  agrees := fun {s b s' us vs after} hq hs hs' hafter hvs => by
    refine h.agrees_bind hf hq hs hs' hafter hvs fun hk a s₁ hg hnone => ?_
    -- The second half cannot give back what the first one has read.
    have hlen := ((hf a).suffix hg).length_le
    rw [hnone, hs', length_append] at hlen
    have hpos := length_pos_iff.mpr (hvs hk)
    omega

theorem last (h : Trims k p q) (hf : ∀ a, Trims l (f a) (g a)) (htakes : ∀ a, Takes (g a)) :
    Trims l (p >>= f) (q >>= g) where
  suffix := h.suffix_bind hf
  agrees := fun {s b s' us vs after} hq hs hs' hafter hvs => by
    refine h.agrees_bind hf hq hs hs' hafter hvs fun _ a s₁ hg hnone => ?_
    have hlen := htakes a hg (by rw [hnone]; exact hafter)
    rw [hnone, hs', length_append] at hlen
    omega

theorem map {h : α → β} (hp : Trims k p q) : Trims k (h <$> p) (h <$> q) := by
  rw [← bind_pure_comp, ← bind_pure_comp]
  exact hp.bind fun a => pure (h a)

theorem discard (h : Trims k p q) : Trims k (discard p) (discard q) := h.map

theorem ite [Decidable c] {p' q' : EStateM Stop σ α} (hpos : c → Trims k p q) (hneg : ¬ c → Trims k p' q') :
    Trims k (if c then p else p') (if c then q else q') :=
  ite_related Iff.rfl hpos hneg

theorem guard [Decidable c] {e : ParseError} {f g : Unit → EStateM Stop σ α} (h : Trims k (f ()) (g ())) :
    Trims k (rejectIf c e f) (rejectIf c e g) := by
  refine ite (fun _ => never fun s a s' hq => ?_) fun _ => h
  obtain ⟨_, _, hthrow, -⟩ := bind_ok hq
  cases hthrow

/-- A loop with a smaller budget does the same, or runs out of it. -/
theorem budget {ι : Type} {p q : Nat → ι → EStateM Stop σ α} (hp : ∀ i s, Violates (p 0 i) s)
    (hq : ∀ i s a s', q 0 i s ≠ .ok a s') (hsucc : ∀ n, (∀ m ≤ n, ∀ i, Trims k (p m i) (q n i)) →
      ∀ m ≤ n, ∀ i, Trims k (p (m + 1) i) (q (n + 1) i)) :
    ∀ n, ∀ m ≤ n, ∀ i, Trims k (p m i) (q n i) := by
  intro n
  induction n with
  | zero => exact fun m _ i => never (hq i)
  | succ n ih =>
    rintro (_ | m) hmn i
    · exact (hsucc n ih n (Nat.le_refl n) i).violated (hp i)
    · exact hsucc n ih m (Nat.le_of_succ_le_succ hmn) i

end Trims

/-- The program looks no further than it reads, and reads a token if there is one. -/
structure Finishes (p q : EStateM Stop σ α) : Prop extends Trims .exact p q where
  takes : Takes q

namespace Finishes

variable {p q : EStateM Stop σ α} {f g : α → EStateM Stop σ β}

theorem never (h : ∀ s a s', q s ≠ .ok a s') : Finishes p q :=
  ⟨Trims.never h, fun hq => absurd hq (h _ _ _)⟩

theorem throw : Finishes p (MonadExcept.throw e) := never fun _ _ _ hq => nomatch hq

theorem bind (h : Finishes p q) (hf : ∀ a, Trims .exact (f a) (g a)) : Finishes (p >>= f) (q >>= g) where
  toTrims := h.toTrims.bind hf
  takes := fun hq hs => by
    obtain ⟨a, s₁, hx, hg⟩ := bind_ok hq
    exact Nat.lt_of_le_of_lt ((hf a).suffix hg).length_le (h.takes hx hs)

/-- What finishes its line may have looked ahead before. -/
theorem after (h : Trims .looks p q) (hf : ∀ a, Finishes (f a) (g a)) : Finishes (p >>= f) (q >>= g) where
  toTrims := h.last (fun a => (hf a).toTrims) fun a => (hf a).takes
  takes := fun hq hs => by
    obtain ⟨a, s₁, hx, hg⟩ := bind_ok hq
    have hle := (h.suffix hx).length_le
    have hle' := ((hf a).suffix hg).length_le
    have hpos := length_pos_iff.mpr hs
    by_cases hnil : ahead s₁ = []
    · -- The first half has read all there was.
      rw [hnil, length_nil] at hle'
      omega
    · have hlt := (hf a).takes hg hnil
      omega

theorem ite [Decidable c] {p' q' : EStateM Stop σ α} (hpos : c → Finishes p q) (hneg : ¬ c → Finishes p' q') :
    Finishes (if c then p else p') (if c then q else q') :=
  ite_related Iff.rfl hpos hneg

theorem guard [Decidable c] {e : ParseError} {f g : Unit → EStateM Stop σ α} (h : Finishes (f ()) (g ())) :
    Finishes (rejectIf c e f) (rejectIf c e g) := by
  refine ite (fun _ => never fun s a s' hq => ?_) fun _ => h
  obtain ⟨_, _, hthrow, -⟩ := bind_ok hq
  cases hthrow

end Finishes

/-! ## Single tokens -/

namespace Parse

/-- Reading a token does not look beyond it. -/
theorem ReadsToken.trims (hp : ReadsToken p) : Trims .exact p p where
  suffix := fun {s t s'} hq => by
    rcases hs : s.stream.rest with _ | ⟨u, rest⟩
    · exact absurd hq (hp.nil hs)
    · rw [hp.cons hs] at hq
      cases hq
      exact ⟨[t], hs.symm⟩
  agrees := fun {s t s' us vs after} hq hs hs' _ _ => by
    have hrest : s.stream.rest = us ++ after := hs
    rcases hall : s.stream.rest with _ | ⟨u, rest⟩
    · exact absurd hq (hp.nil hall)
    · rw [hp.cons hall] at hq
      cases hq
      have hvs : rest = vs ++ after := hs'
      rw [hall, hvs, ← cons_append] at hrest
      obtain rfl := append_cancel_right hrest
      exact .inl (hp.cons rfl)

theorem ReadsToken.finishes (hp : ReadsToken p) : Finishes p p where
  toTrims := hp.trims
  takes := fun {s t s'} hq hs => by
    rcases hall : s.stream.rest with _ | ⟨u, rest⟩
    · exact absurd hall hs
    · rw [hp.cons hall] at hq
      cases hq
      change rest.length < s.stream.rest.length
      rw [hall]
      exact Nat.lt_succ_self _

theorem pop_trims : Trims .looks pop pop := readsToken_pop.trims.looks

theorem next_trims (wanted : Text) : Trims .looks (next wanted) (next wanted) :=
  (readsToken_next wanted).trims.looks

theorem peek?_trims : Trims .looks peek? peek? where
  suffix := fun hq => by
    cases hq
    exact suffix_rfl
  agrees := fun {s o s' us vs after} hq hs hs' _ hvs => by
    rw [peek?_eq] at hq
    cases hq
    have hrest : s.stream.rest = us ++ after := hs
    obtain rfl := append_cancel_right (hs.symm.trans hs')
    rw [peek?_eq, hrest, head?_append_of_ne_nil _ (hvs rfl)]
    exact .inl rfl

variable {k : Reach}

theorem require_trims (h : Helper) : Trims k (require h) (require h) where
  suffix := fun hq => by
    cases hq
    exact suffix_rfl
  agrees := fun hq hs hs' _ _ => by
    cases hq
    obtain rfl := append_cancel_right (hs.symm.trans hs')
    exact .inl rfl

theorem atText_trims (text : Text) : Trims .looks (atText text) (atText text) :=
  peek?_trims.bind fun _ => .pure _

theorem atLineEnd_trims : Trims .looks atLineEnd atLineEnd := by
  refine peek?_trims.bind ?_
  rintro (_ | t)
  · exact .pure _
  · exact .pure _

theorem expect_exact (text : Text) : Trims .exact (expect text) (expect text) :=
  (readsToken_next text).trims.bind fun _ =>
    Trims.ite (fun _ => .throw) fun _ => .pure _

theorem expect_trims (text : Text) : Trims .looks (expect text) (expect text) := (expect_exact text).looks

/-! ## Repetition -/

theorem violates_overBudget (r : Reader) : Violates (stopOverBudget : Parse α) r := ⟨_, _, rfl⟩

theorem bounded_trims {p q : Nat → Parse α} (h : ∀ n, ∀ m ≤ n, Trims k (p m) (q n)) :
    Trims k (bounded p) (bounded q) where
  suffix := fun {r a r'} hq => (h (8 * (r.stream.remaining + 1)) _ (Nat.le_refl _)).suffix hq
  agrees := fun {r a r' us vs after} hq hs hs' hafter hvs => by
    have hrest : r.stream.rest = us ++ after := hs
    have hle : us.length ≤ r.stream.remaining := by
      rw [Stream.remaining, hrest, length_append]
      omega
    exact (h (8 * (r.stream.remaining + 1)) (8 * (us.length + 1)) (by omega)).agrees hq hs hs' hafter
      hvs

/-- A token that is read if it passes a test. Where it does not, it may as well be missing. -/
theorem popWhen_trims {test : Token → Bool} {f f' : Token → Parse α} {g g' : Parse α}
    (hf : ∀ t, test t → Trims k (f t) (f' t)) (hg : Trims k g g') :
    Trims k (popWhen test f g) (popWhen test f' g') where
  suffix := fun {r a r'} hq => by
    rcases popWhen_ok hq with ⟨t, rest, hr, ht, hq⟩ | ⟨-, hq⟩
    · have hrest : ahead (r.advance t rest) = rest := rfl
      exact ((hf t ht).suffix hq).trans ⟨[t], by rw [hrest]; exact hr.symm⟩
    · exact hg.suffix hq
  agrees := fun {r a r' us vs after} hq hs hs' hafter hvs => by
    have hrest : r.stream.rest = us ++ after := hs
    rcases popWhen_ok hq with ⟨t, rest, hr, ht, hq⟩ | ⟨hno, hq⟩
    · obtain ⟨ws, hws⟩ := (hf t ht).suffix hq
      have hws : ws ++ ahead r' = rest := hws
      -- The token was read, so it is not one of those that are missing.
      rw [hs', ← append_assoc] at hws
      rw [hr, ← hws, ← cons_append] at hrest
      obtain rfl := append_cancel_right hrest
      have hpop : popWhen test f g (cut r (t :: (ws ++ vs))) =
          f t (cut (r.advance t rest) (ws ++ vs)) := popWhen_of_cons rfl ht
      rw [Violates, hpop]
      exact (hf t ht).agrees hq hws.symm hs' hafter hvs
    · have hno' : ∀ t ∈ (cut r us).stream.rest.head?, test t = false := by
        intro t ht
        refine hno t ?_
        rw [hrest]
        exact mem_head?_append_of_mem_head? ht
      rw [Violates, popWhen_of_not hno']
      exact hg.agrees hq hs hs' hafter hvs

/-! ## Parsers -/

def trimming : Coupling where
  Holds _ place p q := place.Relates Eq → Trims .looks p q
  grows := True
  lasts := False
  mono _ h := h
  pure a _ := .pure a
  bind hp hf hplace := (hp hplace).bind fun a => hf a trivial
  next wanted _ _ h _ := (next_trims wanted).bind fun t => h (.refl t) rfl
  popWhen _ _ hf hp _ := popWhen_trims (fun t ht => hf (.refl t) ht rfl) (hp trivial)
  look _ h hplace := (atText_trims _).bind fun b => h b hplace
  atLineEnd _ := atLineEnd_trims
  require h _ := require_trims h
  missing _ _ _ _ := .never fun r a r' hq => by
    obtain ⟨e, r₁, -, hreject⟩ := bind_ok hq
    cases hreject
  bounded h hplace :=
    bounded_trims fun n m hmn => h _ m n (Nat.le_refl _) hmn (.inr trivial) False.elim hplace
  stop _ _ := .throw
  more _ _ _ _ _ _ h hplace := (h hplace).violated violates_overBudget
  code _ hp _ := hp trivial
  check _ hp hf hplace := (hp hplace).bind fun a => .ite (fun _ => .throw) fun _ => hf a trivial
  reject _ _ := .throw

theorem expressionList_trims : Trims .looks expressionList expressionList := trimming.expressionList (k := 0) trivial

/-- No form looks further than one token. -/
theorem form_trims (t : Token) (v : View) : Trims .looks (form t.lexeme t v) (form t.lexeme t v) :=
  trimming.form (k := 0) (.refl t) v rfl

/-! ## Comments and raw lines -/

theorem commentText_exact : Trims .exact commentText commentText := by
  rw [commentText_eq_popWhen]
  exact popWhen_trims (fun t _ => .pure _) (.pure _)

theorem trailingComment_trims : Trims .looks trailingComment trailingComment := by
  refine peek?_trims.bind ?_
  rintro (_ | t)
  · exact .pure _
  · refine .ite (fun _ => pop_trims.bind fun t => ?_) fun _ => .pure _
    exact (commentText_exact.looks.bind fun text => .pure _).bind fun comment => .pure _

/-- Raw lines are read up to their dedent and no further. -/
theorem rawLines_exact : Trims .exact (bounded rawLinesIn) (bounded rawLinesIn) := by
  refine bounded_trims fun n m hmn => ?_
  refine .budget (ι := Unit) (p := fun n _ => rawLinesIn n) (q := fun n _ => rawLinesIn n)
    (fun _ => violates_overBudget) (fun _ _ _ _ hq => nomatch hq) ?_ n m hmn ()
  intro n ih m hmn _
  refine (readsToken_next _).trims.bind fun t => .ite (fun _ => ?_) fun _ => ?_
  · exact (ih m hmn ()).bind fun lines => .pure _
  refine .ite (fun _ => ih m hmn ()) fun _ => ?_
  exact .ite (fun _ => .pure _) fun _ => .throw

end Parse

end Offside
