/-
Parsers are safe.

A parser that calls itself spends a unit of budget and has passed a token before, so it never runs
out. That is one of the relations that parsers preserve.
-/
import Offside.Proofs.Parse.Coupling

set_option autoImplicit false

namespace Offside

open Token Reader

namespace Parse

variable {α : Type} {n : Nat} {r : Reader} {t : Token}

/-- A test that no marker passes reads none. -/
theorem popWhen_safe {test : Token → Bool} {f : Token → Parse α} {q : Parse α} {Q : α → Reader → Prop}
    (hmarker : ∀ t, test t → t.isMarker = false)
    (hf : ∀ t r₁, test t → r₁.remaining + 1 = r.remaining → r.Passes 1 r₁ → Safe (f t) r₁ Q) (hq : Safe q r Q) :
    Safe (popWhen test f q) r Q := by
  rcases hrest : r.stream.rest with _ | ⟨t, rest⟩
  · rw [Safe, popWhen_of_not (by rw [hrest]; simp)]
    exact hq
  · by_cases ht : test t
    · rw [Safe, popWhen_of_cons hrest ht]
      have hread := reads_advance hrest
      exact hf t _ ht (remaining_of_reads hread) (Stream.Passes.one hread (hmarker t ht))
    · rw [Safe, popWhen_of_not (by rw [hrest]; simpa using ht)]
      exact hq

/-- The first run is safe and passes no marker. A token that was read before it is no marker either,
or is rejected. -/
def safety : Coupling where
  Holds k place p _ := ∀ r, r.remaining < k → Safe p r fun _ r' =>
    place.Relates (fun t _ => t.isMarker = false) ∧ r.Passes 0 r'
  grows := False
  lasts := True
  mono hjk h r hr := h r (Nat.lt_of_lt_of_le hr hjk)
  pure a r _ := .pure ⟨trivial, Passes.refl r⟩
  bind hp hf r hr := .seq (hp r hr) fun a r₁ h₁ =>
    (hf a r₁ (Nat.lt_of_le_of_lt h₁.2.remaining hr)).mono fun _ _ h₂ => ⟨h₁.1, h₁.2.trans h₂.2⟩
  next wanted _ _ h r hr := .seq (next_spec wanted r) fun t r₁ hread => by
    have hlen := remaining_of_reads hread
    refine (h (.refl t) r₁ (by omega)).mono fun _ _ h₂ => ⟨trivial, ?_⟩
    exact ((Stream.Passes.one hread h₂.1).trans h₂.2).weaken (Nat.zero_le _)
  popWhen hmarker _ hf hq r hr := popWhen_safe hmarker (fun t r₁ ht hlen h₁ =>
    (hf (.refl t) ht r₁ (by omega)).mono fun _ _ h₂ => ⟨trivial, (h₁.trans h₂.2).weaken (Nat.zero_le _)⟩) (hq r hr)
  look _ h r hr := .seq (atText_spec _ r) fun b r₁ hb => by
    obtain ⟨rfl, -⟩ := hb
    exact h b r₁ hr
  atLineEnd r _ := (atLineEnd_spec r).mono fun _ _ h => by
    rw [h]
    exact ⟨trivial, Passes.refl r⟩
  require h r _ := ⟨trivial, Stream.Passes.refl r.stream⟩
  missing wanted _ _ r _ := .seq (missingNext_spec wanted r) fun _ _ _ => .throw
  bounded h r hr := bounded_spec (h (r.remaining + 1) _ _ hr (Nat.le_refl _) (.inl rfl) (fun _ => Nat.le_refl _) r
    (Nat.lt_succ_self _))
  stop hk r hr := by
    rw [hk trivial] at hr
    exact absurd hr (Nat.not_lt_zero _)
  more h := h.elim
  code {_ _ t _ _ _} ht hp r hr := (hp r hr).mono fun _ _ h => ⟨by
    cases hraw : t.raw with
    | true => exact isMarker_of_raw hraw
    | false => exact (ht hraw).marker, h.2⟩
  check _ hp hf r hr := .seq (hp r hr) fun a r₁ h₁ => .ite (fun _ => .throw) fun _ =>
    (hf a r₁ (Nat.lt_of_le_of_lt h₁.2.remaining hr)).mono fun _ _ h₂ => ⟨h₁.1, h₁.2.trans h₂.2⟩
  reject _ _ _ := .throw

/-- What keeps the coupling is safe. -/
theorem safe_of_keeps {p : Parse α} (h : ∀ k, safety.Keeps k p) (r : Reader) : Safe p r fun _ r' => r.Passes 0 r' :=
  (h _ r (Nat.lt_succ_self _)).mono fun _ _ h => h.2

theorem expression_safe (r : Reader) : Safe expression r fun _ r' => r.Passes 0 r' :=
  safe_of_keeps (fun _ => safety.expression.holds) r

theorem expressionList_safe (r : Reader) : Safe expressionList r fun _ r' => r.Passes 0 r' :=
  safe_of_keeps (fun _ => safety.expressionList) r

theorem parameters_safe (r : Reader) : Safe parameters r fun _ r' => r.Passes 0 r' :=
  safe_of_keeps (fun _ => safety.parameters) r

/-- Every form is safe, and starts with no marker. -/
theorem form_safe (t : Token) (v : View) (r : Reader) :
    Safe (form t.lexeme t v) r fun _ r' => t.isMarker = false ∧ r.Passes 0 r' :=
  safety.form (.refl t) v r (Nat.lt_succ_self _)

/-! ## Comments -/

theorem lineComment_safe (sign : Token) (r : Reader) : Safe (lineComment sign) r fun _ r' => r.Passes 0 r' := by
  rw [lineComment, commentText_eq_popWhen]
  refine .seq (popWhen_safe (Q := fun _ r' => r.Passes 0 r') (fun t => isMarker_of_raw) ?_ ?_)
    fun text r₁ h₁ => .pure h₁
  · exact fun _ _ _ _ h₁ => .pure (h₁.weaken (Nat.zero_le _))
  · exact .pure (Passes.refl r)

theorem trailingComment_safe (r : Reader) : Safe trailingComment r fun _ r' => r.Passes 0 r' := by
  rw [trailingComment_eq_popWhen]
  refine popWhen_safe (fun t => isMarker_of_isCommentSign) (fun t r₁ _ _ h₁ => ?_)
    (.pure (Passes.refl r))
  exact .seq (lineComment_safe t r₁) fun comment r₂ h₂ => .pure ((h₁.trans h₂).weaken (Nat.zero_le _))

/-- The lines of a raw block are read up to the dedent that closes it, and with it. So one more
level is closed than opened, whatever the raw lines spell. -/
theorem rawLinesIn_spec (hn : r.remaining < n) : Safe (rawLinesIn n) r fun _ r' =>
      ∃ ts, r.stream.Reads ts r'.stream ∧ balance ts = -1 := by
  induction n generalizing r with
  | zero => omega
  | succ n ih =>
    rw [rawLinesIn]
    refine .seq (next_spec _ r) ?_
    intro t r₁ hread
    have hlen := remaining_of_reads hread
    -- Both a raw line and the newline after one leave the balance alone.
    have hmore : balance [t] = 0 → Safe (rawLinesIn n) r₁ fun _ r' =>
        ∃ ts, r.stream.Reads ts r'.stream ∧ balance ts = -1 := by
      intro ht
      refine (ih (by omega)).mono ?_
      rintro lines r₂ ⟨ts, hts, hbalance⟩
      refine ⟨t :: ts, hread.trans hts, ?_⟩
      rw [balance_cons, ht, hbalance]
      rfl
    refine .ite (fun hraw => ?_) fun _ => .ite (fun hnewline => ?_) fun _ => ?_
    · have ht : balance [t] = 0 := by
        refine balance_plain fun u hu => ?_
        rw [List.mem_singleton.mp hu]
        exact isMarker_of_raw hraw
      exact .seq (hmore ht) fun lines r₂ h₂ => .pure h₂
    · exact hmore (balance_newline hnewline)
    · refine .ite (fun hdedent => ?_) fun _ => reject_spec _ _ _
      exact .pure ⟨[t], hread, balance_dedent hdedent⟩

end Parse

end Offside
