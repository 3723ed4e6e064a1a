/-
Every parser is local.

A sequence is local because its parts are, a test has the same answer because the tokens are alike,
and budgets only grow in the surroundings. So being local is one of the relations that all parsers
preserve.
-/
import Offside.Proofs.Parse.Coupling

set_option autoImplicit false

namespace Offside

open Token

namespace Parse

variable {w : Surroundings}

theorem atLineEnd_local : Stable w atLineEnd := by
  have hlook : atLineEnd = (do return ((← peek?).map fun t =>
      !t.raw && (t.category.isLineMarker || t.isCommentSign)).getD true) := by
    funext r
    rw [atLineEnd_eq, bind_of_ok _ (peek?_eq r)]
    rfl
  rw [Stable, hlook]
  refine peek?_local.bind fun o o' h => Local.pure (Eq.symm ?_)
  refine peeks_getD h (fun hsame => (w.alike hsame).atLineEnd_eq) fun u hu => ?_
  obtain ⟨m, hm⟩ := isMarker_iff.mp hu
  rw [category_isLineMarker, hu, (is_iff.mp hm).1]
  rfl

def locality (w : Surroundings) : Coupling where
  Holds _ place p q := place.Relates w.same → Local w Eq p q
  grows := True
  lasts := False
  mono _ h := h
  pure a _ := Local.pure rfl
  bind hp hf hplace := (hp hplace).seq fun a => hf a trivial
  next wanted _ _ h _ := (next_local wanted).bind fun t u htu => h (w.alike htu) htu
  popWhen hmarker htest hf hp _ := popWhen_local hmarker (fun h => htest (w.alike h))
    (fun t u h ht => hf (w.alike h) ht h) (hp trivial)
  look hplain h hplace := (atText_local hplain).seq fun b => h b hplace
  atLineEnd _ := atLineEnd_local
  require h _ := require_local h
  missing _ _ _ _ := Local.never fun r a r' hp => by
    obtain ⟨e, r₁, -, hreject⟩ := bind_ok hp
    cases hreject
  bounded h hplace :=
    bounded_local fun m n hmn => h _ m n (Nat.le_refl _) hmn (.inr trivial) False.elim hplace
  stop _ _ := Local.throw
  more _ _ _ _ _ _ _ _ := Local.throw
  code _ hp _ := hp trivial
  check _ hp hf hplace :=
    (hp hplace).seq fun a => Local.ite Iff.rfl (fun _ => Local.throw) fun _ => hf a trivial
  reject _ _ := Local.throw

theorem expressionList_local : Stable w expressionList := (locality w).expressionList (k := 0) trivial

/-- A clause may have more loops around it than it knows of, and more functions, unless it is a
constructor. -/
theorem form_of_within {l : Lexeme} {t : Token} {v v' : View} {r r' : Reader} {f : Form} (hv : v.Within v')
    (h : form l t v r = .ok f r') (hf : v'.inFunction = v.inFunction ∨ ∀ ps, f ≠ .block (.constructing ps)) :
    form l t v' r = .ok f r' := by
  obtain ⟨hfunction, hloop, hsame⟩ := hv
  rw [hsame]
  have hjump : ∀ {w : StatementWord}, w = .breakWord ∨ w = .continueWord → l = .keyword (.statement w) →
      form l t { v with inFunction := v'.inFunction, inLoop := v'.inLoop } r = .ok f r' := by
    rintro w hw rfl
    cases hin : v.inLoop with
    | false => rcases hw with rfl | rfl <;> rw [form, statementForm, hin] at h <;> cases h
    | true =>
      rw [hloop hin, ← hin]
      rcases hw with rfl | rfl <;> exact h
  cases l with
  | keyword k =>
    cases k with
    | statement w =>
      cases w with
      | returnWord =>
        cases hin : v.inFunction with
        | false => rw [form, statementForm, hin] at h; cases h
        | true => rw [hfunction hin, ← hin]; exact h
      | breakWord => exact hjump (.inl rfl) rfl
      | continueWord => exact hjump (.inr rfl) rfl
      | _ => exact h
    | constructorWord w =>
      cases w with
      | thisWord =>
        rw [form, bind_of_ok _ (atText_eq "(" r)] at h ⊢
        cases hcalled : (r.stream.rest.head?.map fun t => t.is "(").getD false with
        | false => rw [hcalled] at h; exact h
        | true =>
          rw [hcalled] at h
          cases hin : v.inFunction with
          | true => rw [hin] at h; dsimp only; rw [hfunction hin]; exact h
          | false =>
            -- Outside of all functions the word starts a constructor.
            rcases hf with hf | hf
            · dsimp only; rw [hf]; exact h
            · rw [hin] at h
              cases hclass : v.inClass with
              | false => rw [hclass] at h; cases h
              | true =>
                rw [hclass] at h
                obtain ⟨ps, r₁, -, hblock⟩ : ∃ ps r₁, parameters r = .ok ps r₁ ∧
                  (pure (.block (.constructing ps)) : Parse Form) r₁ = .ok f r' := bind_ok h
                cases hblock
                exact absurd rfl (hf ps)
      | _ => exact h
    | conditional w | exceptionWord w | libraryWord w => cases w <;> exact h
    | _ => exact h
  | shape s => cases s <;> exact h
  | plain => exact h

/-! ## Comments -/

/-- The text of a comment is read alike. -/
theorem commentText_local : Stable w commentText := by
  rw [commentText_eq_popWhen]
  refine popWhen_local (fun t => isMarker_of_raw) (fun h => (w.alike h).raw)
    (fun t u h hraw => ?_) (Local.pure rfl)
  exact Local.pure ((w.alike h).text_eq (isMarker_of_raw hraw)).symm

theorem lineComment_local {sign sign' : Token} (h : w.same sign sign') :
    Local w Eq (lineComment sign) (lineComment sign') := by
  refine commentText_local.seq fun text => Local.pure ?_
  have hsign := (w.alike h).text_eq_iff (rfl : Plain "#.")
  rw [show (sign'.text == "#.") = (sign.text == "#.") from Bool.eq_iff_iff.mpr (by simpa using hsign)]

/-- So is a comment at the end of a line. -/
theorem trailingComment_local : Stable w trailingComment := by
  rw [trailingComment_eq_popWhen]
  refine popWhen_local (fun t => isMarker_of_isCommentSign) (fun h => (w.alike h).isCommentSign_eq)
    (fun t u h _ => ?_) (Local.pure rfl)
  exact (lineComment_local h).seq fun comment => Local.pure rfl

/-- The lines of a raw block are read up to a dedent, without a look ahead, so nothing has to be
known of what comes after. But markers must not be taken for one another. A newline that ends the
input may: it is never read here, since a dedent would have to come after it. -/
theorem rawLinesIn_mirrors {closes : Token → Bool} (htext : ∀ {t u}, w.same t u → closes t = false → u.text = t.text)
    (hnewline : ∀ {t}, closes t → t.is Marker.newline.text) {m n : Nat} (hmn : m ≤ n)
    {r s : Reader} (h : r.Follows w s)
    (hlast : ∀ before t after, r.stream.rest = before ++ t :: after → closes t → after = []) :
    Mirrors (rawLinesIn m) r (rawLinesIn n) s fun lines lines' r' s' => lines = lines' ∧
      r'.Follows w s' ∧ ∃ ts, r.stream.Reads ts r'.stream ∧ ∀ t ∈ ts, closes t = false := by
  induction m generalizing n r s with
  | zero => exact Mirrors.throw
  | succ m ih =>
    obtain ⟨n, rfl⟩ : ∃ k, n = k + 1 := ⟨n - 1, by omega⟩
    rw [rawLinesIn, rawLinesIn]
    refine ((readsToken_next _).mirrors h).bind ?_
    rintro t u r₁ s₁ ⟨htu, hread, h₁⟩
    have hrest : r.stream.rest = t :: r₁.stream.rest := hread.1
    cases hcloses : closes t with
    | true =>
      -- After the last newline there is no line left to read.
      have hend : r₁.stream.rest = [] := hlast [] t r₁.stream.rest hrest hcloses
      have hraw := (is_iff.mp (hnewline hcloses)).1
      refine Mirrors.never fun lines r₂ hm => ?_
      rw [hraw, if_neg Bool.false_ne_true, if_pos (hnewline hcloses)] at hm
      cases m with
      | zero => cases hm
      | succ m =>
        rw [rawLinesIn] at hm
        obtain ⟨v, r₃, hnext, -⟩ := bind_ok hm
        exact (readsToken_next _).nil hend hnext
    | false =>
      have hlast₁ : ∀ before v after, r₁.stream.rest = before ++ v :: after → closes v →
          after = [] := by
        intro before v after hsplit
        refine hlast (t :: before) v after ?_
        rw [hrest, hsplit, List.cons_append]
      have hmore : ∀ {ts r₂}, r₁.stream.Reads ts r₂.stream → (∀ v ∈ ts, closes v = false) →
          ∃ ts, r.stream.Reads ts (Reader.stream r₂) ∧ ∀ v ∈ ts, closes v = false :=
        fun hts hno => ⟨_, hread.trans hts, List.forall_mem_cons.mpr ⟨hcloses, hno⟩⟩
      have his : ∀ text, u.is text = t.is text :=
        is_congr (htext htu hcloses) (w.alike htu).raw
      rw [(w.alike htu).raw, htext htu hcloses, his, his]
      refine Mirrors.ite Iff.rfl (fun _ => ?_) fun _ => ?_
      · refine (ih (by omega) h₁ hlast₁).bind ?_
        rintro lines _ r₂ s₂ ⟨rfl, h₂, ts, hts, hno⟩
        exact Mirrors.pure ⟨rfl, h₂, hmore hts hno⟩
      · refine Mirrors.ite Iff.rfl (fun _ => ?_) fun _ => ?_
        · refine (ih (by omega) h₁ hlast₁).mono ?_
          rintro lines _ r₂ s₂ ⟨rfl, h₂, ts, hts, hno⟩
          exact ⟨rfl, h₂, hmore hts hno⟩
        · refine Mirrors.ite Iff.rfl (fun _ => Mirrors.pure ⟨rfl, h₁, [t], hread, ?_⟩) fun _ =>
            Mirrors.throw
          simpa using hcloses

end Parse

end Offside
