/-
Three judgements about programs that read tokens.

`Safe` is about one run that breaks no rule of the library, `Ensures` about the result of one, and
`Mirrors` about two runs with related results. Each rule is stated once, for any state.
-/
import Offside.Parse.Basic

set_option autoImplicit false

namespace Offside

/-! ## Sequences -/

variable {ε σ α β γ δ : Type}

variable {a : α} {s t s' : σ} {c : Prop} {e : ParseError} {P Q : α → σ → Prop} {V : α → β → σ → σ → Prop}
variable {b : β} {s'' : σ} {d : Prop} {g : σ → σ} {W : γ → δ → σ → σ → Prop}

section

variable {x : EStateM ε σ α} {f : α → EStateM ε σ β} {e : ε}

theorem bind_eq (x : EStateM ε σ α) (f : α → EStateM ε σ β) (s : σ) : (x >>= f) s =
    match x s with
    | .ok a s' => f a s'
    | .error e s' => .error e s' := rfl

/-- A sequence that gives a result gives one at each step. -/
theorem bind_ok (h : (x >>= f) s = .ok b s'') :
    ∃ a s', x s = .ok a s' ∧ f a s' = .ok b s'' := by
  rw [bind_eq] at h
  rcases hx : x s with ⟨a, s'⟩ | ⟨e, s'⟩
  · rw [hx] at h
    exact ⟨a, s', rfl, h⟩
  · rw [hx] at h
    cases h

theorem bind_of_ok (f : α → EStateM ε σ β) (h : x s = .ok a s') : (x >>= f) s = f a s' := by
  rw [bind_eq, h]

theorem bind_of_error (f : α → EStateM ε σ β) (h : x s = .error e s') :
    (x >>= f) s = .error e s' := by
  rw [bind_eq, h]

/-- A sequence that fails fails at one of its steps. -/
theorem bind_error (h : (x >>= f) s = .error e s'') :
    x s = .error e s'' ∨ ∃ a s', x s = .ok a s' ∧ f a s' = .error e s'' := by
  rw [bind_eq] at h
  rcases hx : x s with ⟨a, s'⟩ | ⟨e', s'⟩
  · rw [hx] at h
    exact .inr ⟨a, s', rfl, h⟩
  · rw [hx] at h
    cases h
    exact .inl rfl

end

theorem discard_bind (x : EStateM ε σ α) (f : Unit → EStateM ε σ β) :
    (discard x >>= f) = x >>= fun _ => f () := bind_map_left _ x f

/-- Two programs that branch alike are related if their branches are. -/
theorem ite_related {R : α → β → Prop} [Decidable c] [Decidable d] {m m' : α} {n n' : β} (hcd : c ↔ d)
    (hpos : c → R m n) (hneg : ¬ c → R m' n') : R (if c then m else m') (if d then n else n') := by
  by_cases hc : c
  · rw [if_pos hc, if_pos (hcd.mp hc)]
    exact hpos hc
  · rw [if_neg hc, if_neg fun hd => hc (hcd.mpr hd)]
    exact hneg hc

/-- The program that is rejected if `c` holds, and goes on as `f` otherwise. -/
abbrev rejectIf (c : Prop) [Decidable c] (e : ParseError) (f : Unit → EStateM Stop σ α) : EStateM Stop σ α :=
  if c then (throw (.rejected e) : EStateM Stop σ Unit) >>= f else f ()

/-! ## One run -/

/-- `m` run from `s` violates nothing, and if it gives a result then `Q` holds of it. -/
def Safe (m : EStateM Stop σ α) (s : σ) (Q : α → σ → Prop) : Prop :=
  match m s with
  | .ok a s' => Q a s'
  | .error (.rejected _) _ => True
  | .error (.violated _) _ => False

section

variable {m n x : EStateM Stop σ α} {f : α → EStateM Stop σ β} {R : β → σ → Prop}

namespace Safe

theorem of_ok (h : Safe m s Q) (hm : m s = .ok a s') : Q a s' := by
  rw [Safe, hm] at h
  exact h

/-- A safe program fails by rejecting a token. -/
theorem rejected_of_error {e : Stop} (h : Safe m s Q) (hm : m s = .error e s') :
    ∃ err, e = .rejected err := by
  rw [Safe, hm] at h
  cases e with
  | rejected err => exact ⟨err, rfl⟩
  | violated v => exact h.elim

theorem weaken (h : Safe m s P) (hPQ : ∀ a s', m s = .ok a s' → P a s' → Q a s') : Safe m s Q := by
  unfold Safe at h ⊢
  split
  · next hm =>
    rw [hm] at h
    exact hPQ _ _ hm h
  · trivial
  · next hm => rw [hm] at h; exact h

theorem mono (h : Safe m s P) (hPQ : ∀ a s', P a s' → Q a s') : Safe m s Q := h.weaken fun a s' _ => hPQ a s'

/-- Safety step by step. -/
theorem bind (h : Safe x s fun a s' => Safe (f a) s' R) : Safe (x >>= f) s R := by
  unfold Safe at h ⊢
  rw [bind_eq]
  cases hx : x s with
  | ok a s' => rw [hx] at h; exact h
  | error e s' =>
    rw [hx] at h
    cases e with
    | rejected err => trivial
    | violated v => exact h

/-- The same with a property between the steps. -/
theorem seq (h : Safe x s P) (hf : ∀ a s', P a s' → Safe (f a) s' R) : Safe (x >>= f) s R :=
  bind (h.mono hf)

theorem pure (h : Q a s) : Safe (Pure.pure a : EStateM Stop σ α) s Q := h

theorem map {f : α → β} (h : Safe x s fun a s' => R (f a) s') : Safe (f <$> x) s R := by
  have hb : f <$> x = x >>= fun a => Pure.pure (f a) := (bind_pure_comp f x).symm
  rw [hb]
  exact bind h

theorem discard (h : Safe x s P) : Safe (discard x) s fun _ s' => ∃ a, P a s' :=
  map (h.mono fun a _ ha => ⟨a, ha⟩)

theorem throw : Safe (throw (.rejected e) : EStateM Stop σ α) s Q := trivial

theorem ite [Decidable c] (hpos : c → Safe m s Q) (hneg : ¬ c → Safe n s Q) : Safe (if c then m else n) s Q :=
  iteInduction (motive := fun m => Safe m s Q) hpos hneg

theorem guard [Decidable c] {f : Unit → EStateM Stop σ α} (h : ¬ c → Safe (f ()) s Q) : Safe (rejectIf c e f) s Q :=
  ite (fun _ => seq (P := fun _ _ => False) throw fun _ _ h => h.elim) h

theorem get {f : σ → EStateM Stop σ α} (h : Safe (f s) s Q) : Safe (MonadState.get >>= f) s Q := h

theorem modify {f : PUnit → EStateM Stop σ α} (h : Safe (f ⟨⟩) (g s) Q) : Safe (modifyThe σ g >>= f) s Q := h

end Safe

/-! ## One run that gives a result -/

def Ensures (m : EStateM Stop σ α) (s : σ) (Q : α → σ → Prop) : Prop :=
  ∀ a s', m s = .ok a s' → Q a s'

namespace Ensures

theorem of_safe (h : Safe m s Q) : Ensures m s Q := fun _ _ hm => h.of_ok hm

theorem mono (h : Ensures m s P) (hPQ : ∀ a s', P a s' → Q a s') : Ensures m s Q := fun a s' hm => hPQ a s' (h a s' hm)

theorem seq (h : Ensures x s P) (hf : ∀ a s', P a s' → Ensures (f a) s' R) : Ensures (x >>= f) s R := by
  intro b s'' hm
  obtain ⟨a, s', hx, hf'⟩ := bind_ok hm
  exact hf a s' (h a s' hx) b s'' hf'

theorem pure (h : Q a s) : Ensures (Pure.pure a : EStateM Stop σ α) s Q := by
  intro a' s' hm
  cases hm
  exact h

theorem map {f : α → β} (h : Ensures x s fun a s' => R (f a) s') : Ensures (f <$> x) s R := by
  rw [← bind_pure_comp f x]
  exact seq h fun a s' ha => pure ha

theorem seq_map {f : α → β} {g : β → EStateM Stop σ γ} {Q : γ → σ → Prop}
    (h : Ensures x s P) (hg : ∀ a s', P a s' → Ensures (g (f a)) s' Q) : Ensures (f <$> x >>= g) s Q := by
  rw [bind_map_left]
  exact seq h hg

theorem behind (hf : ∀ a s', Ensures (f a) s' R) : Ensures (x >>= f) s R :=
  seq (P := fun _ _ => True) (fun _ _ _ => trivial) fun a s' _ => hf a s'

theorem discard (h : Ensures x s P) : Ensures (discard x) s fun _ s' => ∃ a, P a s' :=
  map (h.mono fun a _ ha => ⟨a, ha⟩)

theorem throw {e : Stop} : Ensures (throw e : EStateM Stop σ α) s Q := by
  intro a s' hm
  cases hm

theorem ite [Decidable c] (hpos : c → Ensures m s Q) (hneg : ¬ c → Ensures n s Q) :
    Ensures (if c then m else n) s Q :=
  iteInduction (motive := fun m => Ensures m s Q) hpos hneg

theorem guard [Decidable c] {f : Unit → EStateM Stop σ α} (h : ¬ c → Ensures (f ()) s Q) :
    Ensures (rejectIf c e f) s Q :=
  ite (fun _ => seq (P := fun _ _ => False) throw fun _ _ h => h.elim) h

theorem get {f : σ → EStateM Stop σ α} (h : Ensures (f s) s Q) : Ensures (MonadState.get >>= f) s Q := h

theorem modify {f : PUnit → EStateM Stop σ α} (h : Ensures (f ⟨⟩) (g s) Q) : Ensures (modifyThe σ g >>= f) s Q := h

end Ensures

/-- What a result ensures may be added to what is safe. -/
theorem Safe.and (h : Safe m s P) (h' : Ensures m s Q) : Safe m s fun a s' => P a s' ∧ Q a s' :=
  h.weaken fun a s' hm ha => ⟨ha, h' a s' hm⟩

end

/-! ## Two runs -/

/-- If `m` run from `s` gives a result, then so does `n` run from `t`, and `V` relates the two.
Results without `D` do not count. -/
def Mirrors (m : EStateM Stop σ α) (s : σ) (n : EStateM Stop σ β) (t : σ)
    (V : α → β → σ → σ → Prop) (D : α → Prop := fun _ => True) : Prop :=
  ∀ a s', m s = .ok a s' → D a → ∃ b t', n t = .ok b t' ∧ V a b s' t'

namespace Mirrors

variable {m x : EStateM Stop σ α} {n y : EStateM Stop σ β} {D : α → Prop}

/-- Programs that mirror each other step by step do so as a whole. -/
theorem bind {f : α → EStateM Stop σ γ} {g : β → EStateM Stop σ δ} {D : γ → Prop} (h : Mirrors x s y t V)
    (hf : ∀ a b s' t', V a b s' t' → Mirrors (f a) s' (g b) t' W D) :
    Mirrors (x >>= f) s (y >>= g) t W D := by
  intro c s'' hm hc
  obtain ⟨a, s', hx, hm⟩ := bind_ok hm
  obtain ⟨b, t', hy, hV⟩ := h a s' hx trivial
  obtain ⟨d, t'', hg, hW⟩ := hf a b s' t' hV c s'' hm hc
  exact ⟨d, t'', by rw [bind_of_ok g hy]; exact hg, hW⟩

theorem pure (h : V a b s t) : Mirrors (Pure.pure a) s (Pure.pure b) t V D := by
  intro a' s' hm _
  cases hm
  exact ⟨b, t, rfl, h⟩

/-- Two choices mirror each other if they choose alike. -/
theorem ite [Decidable c] [Decidable d] {m' : EStateM Stop σ α} {n' : EStateM Stop σ β} (hcd : c ↔ d)
    (hpos : c → Mirrors m s n t V D) (hneg : ¬ c → Mirrors m' s n' t V D) :
    Mirrors (if c then m else m') s (if d then n else n') t V D :=
  ite_related (R := fun m n => Mirrors m s n t V D) hcd hpos hneg

/-- The second may be less strict than the first. -/
theorem guard [Decidable c] [Decidable d] {e' : ParseError} {f : Unit → EStateM Stop σ α}
    {g : Unit → EStateM Stop σ β} (hdc : d → c) (h : ¬ c → Mirrors (f ()) s (g ()) t V D) :
    Mirrors (rejectIf c e f) s (rejectIf d e' g) t V D := by
  by_cases hc : c
  · rw [rejectIf, if_pos hc]
    intro a s' hm _
    obtain ⟨_, _, hthrow, -⟩ := bind_ok hm
    cases hthrow
  · rw [rejectIf, rejectIf, if_neg hc, if_neg fun hd => hc (hdc hd)]
    exact h hc

theorem get {f : σ → EStateM Stop σ α} {g : σ → EStateM Stop σ β} (h : Mirrors (f s) s (g t) t V D) :
    Mirrors (MonadState.get >>= f) s (MonadState.get >>= g) t V D := h

theorem modify {j k : σ → σ} {f : PUnit → EStateM Stop σ α} {g : PUnit → EStateM Stop σ β}
    (h : Mirrors (f ⟨⟩) (j s) (g ⟨⟩) (k t) V D) : Mirrors (modifyThe σ j >>= f) s (modifyThe σ k >>= g) t V D := h

theorem mono {W : α → β → σ → σ → Prop} (h : Mirrors m s n t V)
    (hVW : ∀ a b s' t', V a b s' t' → W a b s' t') : Mirrors m s n t W D := by
  intro a s' hm _
  obtain ⟨b, t', hn, hV⟩ := h a s' hm trivial
  exact ⟨b, t', hn, hVW a b s' t' hV⟩

theorem given (h : Mirrors m s n t V) : Mirrors m s n t V D :=
  h.mono fun _ _ _ _ => id

theorem map {k : α → γ} {j : β → δ} {D : γ → Prop}
    (h : Mirrors x s y t V fun a => D (k a)) (hW : ∀ a b s' t', V a b s' t' → W (k a) (j b) s' t') :
    Mirrors (x >>= fun a => Pure.pure (k a)) s (y >>= fun b => Pure.pure (j b)) t W D := by
  intro c s' hm hc
  obtain ⟨a, s₁, hx, hpure⟩ := bind_ok hm
  cases hpure
  obtain ⟨b, t', hy, hV⟩ := h a s' hx hc
  exact ⟨j b, t', by rw [bind_of_ok _ hy]; rfl, hW a b s' t' hV⟩

theorem never (h : ∀ a s', m s ≠ .ok a s') : Mirrors m s n t V D := fun a s' hm => absurd hm (h a s')

theorem throw {e : Stop} : Mirrors (throw e : EStateM Stop σ α) s n t V D := by
  intro a s' hm
  cases hm

end Mirrors

end Offside
