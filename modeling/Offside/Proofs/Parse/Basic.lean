/-
Reading tokens one by one is safe.

A program that reads moves tokens and does nothing else to the stream (`Stream.Reads`). Most read no
line marker, and `Stream.Passes` counts the tokens, which pays for recursion: every cycle of calls
passes one.
-/
import Offside.Proofs.Marker
import Offside.Proofs.Outcome

set_option autoImplicit false

open List

namespace Offside

/-! ## How a stream moves -/

variable {j k : Nat} {t : Token} {r r' : Reader} {s s' : Stream} {ts rest : List Token} {test : Token → Bool}
variable {text : Text} {s₁ s₂ : Stream}

namespace Stream

def Reads (s : Stream) (ts : List Token) (s' : Stream) : Prop :=
  s.rest = ts ++ s'.rest ∧ s'.seen = ts.reverse ++ s.seen

theorem Reads.refl (s : Stream) : s.Reads [] s := ⟨rfl, rfl⟩

theorem Reads.trans {us : List Token} (h : s.Reads ts s₁) (h' : s₁.Reads us s₂) : s.Reads (ts ++ us) s₂ := by
  refine ⟨?_, ?_⟩
  · rw [h.1, h'.1, append_assoc]
  · rw [h'.2, h.2, reverse_append, append_assoc]

/-- What was read is no longer ahead. -/
theorem Reads.remaining (h : s.Reads ts s') : s'.remaining + ts.length = s.remaining := by
  rw [Stream.remaining, Stream.remaining, h.1, length_append]
  omega

theorem Reads.balance (h : s.Reads ts s') : Token.balance s'.seen = Token.balance s.seen + Token.balance ts := by
  rw [h.2, Token.balance_append, Token.balance_reverse]
  omega

def Passes (k : Nat) (s s' : Stream) : Prop :=
  ∃ ts, s.Reads ts s' ∧ k ≤ ts.length ∧ ∀ t ∈ ts, t.isMarker = false

theorem Passes.refl (s : Stream) : s.Passes 0 s :=
  ⟨[], Reads.refl s, Nat.le_refl 0, fun _ h => nomatch h⟩

theorem Passes.trans (h : s.Passes j s₁) (h' : s₁.Passes k s₂) : s.Passes (j + k) s₂ := by
  obtain ⟨ts, hts, hj, hplain⟩ := h
  obtain ⟨us, hus, hk, hplain'⟩ := h'
  refine ⟨ts ++ us, hts.trans hus, by rw [length_append]; omega, ?_⟩
  intro t ht
  rcases mem_append.mp ht with ht | ht
  · exact hplain t ht
  · exact hplain' t ht

theorem Passes.weaken (h : s.Passes k s') (hjk : j ≤ k) : s.Passes j s' := by
  obtain ⟨ts, hts, hk, hplain⟩ := h
  exact ⟨ts, hts, by omega, hplain⟩

theorem Passes.one (h : s.Reads [t] s') (ht : t.isMarker = false) : s.Passes 1 s' := by
  refine ⟨[t], h, Nat.le_refl 1, ?_⟩
  intro u hu
  rw [mem_singleton.mp hu]
  exact ht

/-- What was passed is no longer ahead. -/
theorem Passes.remaining (h : s.Passes k s') : s'.remaining + k ≤ s.remaining := by
  obtain ⟨ts, hts, hk, -⟩ := h
  have := hts.remaining
  omega

end Stream

namespace Reader

def remaining (r : Reader) : Nat := r.stream.remaining

def advance (r : Reader) (t : Token) (rest : List Token) : Reader :=
  { r with stream := { seen := t :: r.stream.seen, rest := rest } }

def Passes (k : Nat) (r r' : Reader) : Prop := r.stream.Passes k r'.stream

theorem reads_advance (h : r.stream.rest = t :: rest) : r.stream.Reads [t] (r.advance t rest).stream :=
  ⟨h, rfl⟩

theorem Passes.refl (r : Reader) : r.Passes 0 r := Stream.Passes.refl r.stream

theorem Passes.trans {r₁ r₂ : Reader} (h : r.Passes j r₁) (h' : r₁.Passes k r₂) :
    r.Passes (j + k) r₂ := Stream.Passes.trans h h'

theorem Passes.weaken (h : r.Passes k r') (hjk : j ≤ k) : r.Passes j r' := Stream.Passes.weaken h hjk

theorem Passes.remaining (h : r.Passes k r') : r'.remaining + k ≤ r.remaining := Stream.Passes.remaining h

theorem remaining_of_reads (h : r.stream.Reads [t] r'.stream) :
    r'.remaining + 1 = r.remaining := Stream.Reads.remaining h

end Reader

namespace Parse

variable {α : Type}

/-! ## Single tokens -/

theorem pop_eq (h : r.stream.rest = t :: rest) : pop r = .ok t (r.advance t rest) := by
  rw [pop, Stream.pop, h]
  rfl

theorem next_eq (wanted : Text) (h : r.stream.rest = t :: rest) : next wanted r = .ok t (r.advance t rest) := by
  have hsplit : next wanted r
      = (if r.stream.isEmpty = true then rejectEnd wanted else pop) r := rfl
  rw [hsplit, Stream.isEmpty, h]
  exact pop_eq h

theorem next_eq_nil (wanted : Text) (h : r.stream.rest = []) :
    next wanted r = .error (.rejected (.endOfInput wanted r.stream.line)) r := by
  have hsplit : next wanted r
      = (if r.stream.isEmpty = true then rejectEnd wanted else pop) r := rfl
  rw [hsplit, Stream.isEmpty, h]
  rfl

theorem peek?_eq (r : Reader) : peek? r = .ok r.stream.rest.head? r := rfl

theorem atText_eq (text : Text) (r : Reader) :
    atText text r = .ok ((r.stream.rest.head?.map (·.is text)).getD false) r := rfl

theorem atCategory_eq (c : Category) (r : Reader) : atCategory c r
      = .ok ((r.stream.rest.head?.map fun t => decide (t.category = c)).getD false) r := rfl

theorem atLineEnd_eq (r : Reader) : atLineEnd r = .ok ((r.stream.rest.head?.map fun t =>
      !t.raw && (t.category.isLineMarker || t.isCommentSign)).getD true) r := by
  rw [atLineEnd, bind_of_ok _ (peek?_eq r)]
  cases r.stream.rest.head? <;> rfl

theorem pop_spec (h : r.stream.rest = t :: rest) : Safe pop r fun a r' => a = t ∧ r.stream.Reads [t] r'.stream := by
  rw [Safe, pop_eq h]
  exact ⟨rfl, Reader.reads_advance h⟩

/-- Reading a token reads just that one. -/
theorem next_spec (wanted : Text) (r : Reader) : Safe (next wanted) r fun t r' => r.stream.Reads [t] r'.stream := by
  rw [Safe]
  cases h : r.stream.rest with
  | nil => rw [next_eq_nil wanted h]; trivial
  | cons t rest => rw [next_eq wanted h]; exact Reader.reads_advance h

/-- Looking at the next token moves nothing. -/
theorem atText_spec (text : Text) (r : Reader) : Safe (atText text) r fun b r' => r' = r ∧
      (b → ∃ t rest, r.stream.rest = t :: rest ∧ t.is text) := by
  rw [Safe, atText_eq]
  refine ⟨rfl, fun hb => ?_⟩
  cases h : r.stream.rest with
  | nil => rw [h] at hb; cases hb
  | cons t rest => rw [h] at hb; exact ⟨t, rest, rfl, hb⟩

theorem atCategory_spec (c : Category) (r : Reader) : Safe (atCategory c) r fun b r' => r' = r ∧
      (b → ∃ t rest, r.stream.rest = t :: rest ∧ t.category = c) := by
  rw [Safe, atCategory_eq]
  refine ⟨rfl, fun hb => ?_⟩
  cases h : r.stream.rest with
  | nil => rw [h] at hb; cases hb
  | cons t rest => rw [h] at hb; exact ⟨t, rest, rfl, of_decide_eq_true hb⟩

theorem atLineEnd_spec (r : Reader) : Safe atLineEnd r fun _ r' => r' = r := by
  rw [Safe, atLineEnd_eq]

theorem reject_spec (e : ParseError) (r : Reader) (Q : α → Reader → Prop) : Safe (reject e) r Q := trivial

theorem missingNext_spec (wanted : Text) (r : Reader) : Safe (missingNext wanted) r fun _ r' => r' = r := by
  rw [Safe, missingNext, bind_of_ok _ (peek?_eq r)]
  cases r.stream.rest.head? <;> rfl

theorem rejectNext_spec (wanted : Text) (r : Reader) (Q : α → Reader → Prop) : Safe (rejectNext wanted) r Q :=
  Safe.seq (missingNext_spec wanted r) fun e r' _ => reject_spec e r' Q

def Plain (text : Text) : Prop := (Marker.all.any fun m => text == m.text) = false

/-- What is expected is passed. -/
theorem expect_spec (hp : Plain text) (r : Reader) : Safe (expect text) r fun _ r' => r.Passes 1 r' := by
  refine Safe.seq (next_spec text r) ?_
  intro t r' hread
  by_cases ht : t.is text
  · rw [if_neg (by rw [ht]; decide)]
    exact Safe.pure (Stream.Passes.one hread (by rw [Token.isMarker_of_is ht]; exact hp))
  · rw [if_pos (by rw [Bool.not_eq_true] at ht; rw [ht]; rfl)]
    exact reject_spec _ _ _

/-! ## Tokens that are read if they pass a test -/

/-- Reads the next token if it passes a test and goes on with it; otherwise does something else.
Unlike a look ahead with a `pop` later, it says that the token read is the one that was tested. -/
def popWhen (test : Token → Bool) (f : Token → Parse α) (g : Parse α) : Parse α := fun r =>
  match r.stream.rest with
  | [] => g r
  | t :: rest => if test t then f t (r.advance t rest) else g r

variable {g : Parse α} {f : Token → Parse α}

/-- A token is read if it passes the test, and stays ahead if not. -/
theorem popWhen_ok {a : α} (h : popWhen test f g r = .ok a r') :
    (∃ t rest, r.stream.rest = t :: rest ∧ test t ∧ f t (r.advance t rest) = .ok a r') ∨
      ((∀ t ∈ r.stream.rest.head?, test t = false) ∧ g r = .ok a r') := by
  unfold popWhen at h
  rcases hr : r.stream.rest with _ | ⟨t, rest⟩
  · rw [hr] at h
    exact .inr ⟨fun _ ht => (nomatch ht), h⟩
  · rw [hr] at h
    dsimp only at h
    by_cases ht : test t
    · rw [if_pos ht] at h
      exact .inl ⟨t, rest, rfl, ht, h⟩
    · rw [if_neg ht] at h
      refine .inr ⟨fun u hu => ?_, h⟩
      cases hu
      rwa [Bool.not_eq_true] at ht

theorem popWhen_of_cons (hr : r.stream.rest = t :: rest) (ht : test t) :
    popWhen test f g r = f t (r.advance t rest) := by
  rw [popWhen, hr]
  exact if_pos ht

theorem popWhen_of_not (ht : ∀ t ∈ r.stream.rest.head?, test t = false) : popWhen test f g r = g r := by
  rw [popWhen]
  split
  · rfl
  · next t rest hr =>
    rw [hr] at ht
    exact if_neg (by rw [ht t rfl]; exact Bool.false_ne_true)

theorem popWhen_eq (test : Token → Bool) (f : Token → Parse α) (g : Parse α) : popWhen test f g = (do
      match ← peek? with
      | some t => if test t then pop >>= f else g
      | none => g) := by
  funext r
  rw [bind_of_ok _ (peek?_eq r)]
  rcases hr : r.stream.rest with _ | ⟨t, rest⟩
  · rw [popWhen, hr]
    rfl
  · by_cases ht : test t
    · rw [popWhen_of_cons hr ht, head?_cons]
      dsimp only
      rw [if_pos ht, bind_of_ok f (pop_eq hr)]
    · rw [popWhen_of_not (by rw [hr]; rintro _ ⟨⟩; exact Bool.eq_false_iff.mpr ht), head?_cons]
      dsimp only
      rw [if_neg ht]

theorem popWhen_category (c : Category) (f : Token → Parse α) (g : Parse α) :
    popWhen (fun t => decide (t.category = c)) f g
      = (do if ← atCategory c then pop >>= f else g) := by
  rw [popWhen_eq]
  funext r
  rw [bind_of_ok _ (peek?_eq r), bind_of_ok _ (atCategory_eq c r)]
  rcases r.stream.rest.head? with _ | t <;> rfl

theorem atText_eq_popWhen {f : Bool → Parse α} {p : Token → Parse α} (h : f true = pop >>= p) :
    atText text >>= f = popWhen (·.is text) p (f false) := by
  rw [popWhen_eq]
  funext r
  rw [bind_of_ok _ (peek?_eq r), bind_of_ok _ (atText_eq text r), ← h]
  rcases r.stream.rest.head? with _ | t
  · rfl
  · change f (t.is text) r = _
    dsimp only
    cases t.is text <;> rfl

theorem ifAccept_eq_popWhen (text : Text) (p q : Parse α) :
    (do if ← accept text then p else q) = popWhen (·.is text) (fun _ => p) q := by
  rw [accept, bind_assoc]
  refine atText_eq_popWhen ?_
  rw [if_pos rfl, bind_assoc, discard_bind]
  rfl

theorem ifAccept_bind {β : Type} (text : Text) (p q : Parse α) (f : α → Parse β) :
    (do if ← accept text then p else q) >>= f = (do if ← accept text then p >>= f else q >>= f) := by
  rw [bind_assoc]
  congr
  funext b
  cases b <;> rfl

/-! ## Budgets -/

/-- A budget of eight for each token ahead. -/
theorem bounded_spec {p : Nat → Parse α} {Q : α → Reader → Prop} (h : Safe (p (8 * (r.remaining + 1))) r Q) :
    Safe (bounded p) r Q := h

theorem bounded_bind {β : Type} (p : Nat → Parse α) (f : α → Parse β) :
    bounded p >>= f = bounded fun n => p n >>= f := by
  rw [bounded, bounded, bind_assoc]

end Parse

end Offside
