/-
Parsers depend on what is ahead, and on nothing else.

A reader may stand in surroundings that it does not know of: more tokens after its own, helpers
recorded before, other lines. `Parse.Local` says that a parser gives the same result there.
-/
import Mathlib.Data.List.Forall2
import Offside.Proofs.Parse.Basic

set_option autoImplicit false

open List

namespace Offside

/-! ## Tokens that parsers cannot tell apart -/

variable {text : Text}

namespace Token

/-- The tokens have the same text, or both are markers. Their places may differ. -/
structure Alike (t u : Token) : Prop where
  raw : u.raw = t.raw
  text : u.text = t.text ∨ t.isMarker ∧ u.isMarker

namespace Alike

variable {t u : Token}

theorem refl (t : Token) : t.Alike t := ⟨rfl, .inl rfl⟩

theorem isMarker (h : t.Alike u) : u.isMarker = t.isMarker := by
  rcases h.text with htext | ⟨ht, hu⟩
  · simp only [Token.isMarker, is_congr htext h.raw]
  · rw [ht, hu]

/-- Tokens that are alike have one text, unless they are markers. -/
theorem text_eq (h : t.Alike u) (ht : t.isMarker = false) : u.text = t.text := by
  rcases h.text with htext | ⟨hm, -⟩
  · exact htext
  · rw [hm] at ht
    cases ht

theorem lexeme_eq (h : t.Alike u) (ht : t.isMarker = false) : u.lexeme = t.lexeme := by
  rw [lexeme, lexeme, h.raw, h.text_eq ht]

theorem category_eq (h : t.Alike u) (ht : t.isMarker = false) : u.category = t.category := by
  rw [category, category, h.lexeme_eq ht]

theorem lexeme_cases (h : t.Alike u) : u.lexeme = t.lexeme ∨
      ∃ m m', t.lexeme = .keyword (.marker m) ∧ u.lexeme = .keyword (.marker m') := by
  by_cases ht : t.isMarker
  · obtain ⟨m, hm⟩ := isMarker_iff_lexeme.mp ht
    obtain ⟨m', hm'⟩ := isMarker_iff_lexeme.mp (h.isMarker.trans ht)
    exact .inr ⟨m, m', hm, hm'⟩
  · rw [Bool.not_eq_true] at ht
    exact .inl (h.lexeme_eq ht)

/-- No test for a text of code tells them apart. -/
theorem is_eq (h : t.Alike u) (hp : Parse.Plain text) : u.is text = t.is text := by
  rcases h.text with htext | ⟨ht, hu⟩
  · exact is_congr htext h.raw text
  · have hno : ∀ v : Token, v.isMarker → v.is text = false := by
      intro v hv
      rw [Bool.eq_false_iff]
      intro his
      rw [isMarker_of_is his, hp] at hv
      cases hv
    rw [hno t ht, hno u hu]

theorem text_eq_iff (h : t.Alike u) (hp : Parse.Plain text) : u.text = text ↔ t.text = text := by
  rcases h.text with htext | ⟨ht, hu⟩
  · rw [htext]
  · have hno : ∀ v : Token, v.isMarker → v.text ≠ text := by
      intro v hv htext
      obtain ⟨m, his⟩ := isMarker_iff.mp hv
      have hplain : v.isMarker = false := by
        rw [isMarker_of_is (is_iff.mpr ⟨(is_iff.mp his).1, htext⟩), hp]
      rw [hv] at hplain
      cases hplain
    exact ⟨fun hut => absurd hut (hno u hu), fun htt => absurd htt (hno t ht)⟩

/-- Nor does any test that no marker passes. -/
theorem test_eq (h : t.Alike u) {f : Token → Bool} (hf : ∀ v : Token, f v → v.isMarker = false)
    (heq : u.text = t.text → f u = f t) : f u = f t := by
  rcases h.text with htext | ⟨ht, hu⟩
  · exact heq htext
  · have hno : ∀ v : Token, v.isMarker → f v = false := by
      intro v hv
      rw [Bool.eq_false_iff]
      intro hfv
      rw [hf v hfv] at hv
      cases hv
    rw [hno t ht, hno u hu]

theorem isWord_eq (h : t.Alike u) : u.isWord = t.isWord :=
  h.test_eq (fun _ => isMarker_of_isWord) fun htext => by rw [isWord, isWord, h.raw, htext]

theorem isTypeName_eq (h : t.Alike u) : u.category.isTypeName = t.category.isTypeName :=
  h.test_eq (f := fun v => v.category.isTypeName) (fun _ => isMarker_of_isTypeName) fun htext => by
    rw [category, category, lexeme, lexeme, h.raw, htext]

theorem isCommentSign_eq (h : t.Alike u) : u.isCommentSign = t.isCommentSign :=
  h.test_eq (fun _ => isMarker_of_isCommentSign) fun htext => by
    rw [isCommentSign, isCommentSign, is_congr htext h.raw, is_congr htext h.raw]

theorem atLineEnd_eq (h : t.Alike u) : (!u.raw && (u.category.isLineMarker || u.isCommentSign)) =
    (!t.raw && (t.category.isLineMarker || t.isCommentSign)) := by
  rw [category_isLineMarker, category_isLineMarker, h.raw, h.isMarker, h.isCommentSign_eq]

theorem decide_category_eq (h : t.Alike u) {c : Category} (hc : c.isLineMarker = false) :
    decide (u.category = c) = decide (t.category = c) := by
  refine h.test_eq (f := fun v => decide (v.category = c)) (fun v hv => ?_) fun htext => ?_
  · rw [isMarker_of_category (of_decide_eq_true hv), hc]
  · rw [category, category, lexeme, lexeme, h.raw, htext]

end Alike

end Token

/-! ## Readers in surroundings -/

/-- What a reader may stand in: a relation between its tokens and those that are there instead, the
tokens that come after, and the helpers that were recorded before. -/
structure Surroundings where
  same : Token → Token → Prop
  alike : ∀ {t u}, same t u → t.Alike u
  total : ∀ t, ∃ u, same t u
  after : List Token
  helpers : List Helper

namespace Surroundings

variable (w : Surroundings)

/-- What comes after a reader at its end does not mislead a parser: there is nothing, or a marker. -/
def Sees (r : Reader) : Prop :=
  r.stream.rest = [] → ∀ t ∈ w.after.head?, t.isMarker

def Peeks : Option Token → Option Token → Prop
  | some t, some u => w.same t u
  | some _, none => False
  | none, o => ∀ u ∈ o, u.isMarker = true

end Surroundings

/-- `s` is the reader `r` in its surroundings. -/
structure Reader.Follows (w : Surroundings) (r s : Reader) : Prop where
  rest : ∃ ts, Forall₂ w.same r.stream.rest ts ∧ s.stream.rest = ts ++ w.after
  helpers : s.helpers.used = w.helpers ++ r.helpers.used.filter fun h => decide (h ∉ w.helpers)

namespace Reader.Follows

variable {w : Surroundings} {r s : Reader}

theorem rest_eq (h : r.Follows w s) (hrest : r.stream.rest = []) : s.stream.rest = w.after := by
  obtain ⟨ts, hts, hs⟩ := h.rest
  rw [hrest, forall₂_nil_left_iff] at hts
  rw [hs, hts, nil_append]

theorem remaining_le (h : r.Follows w s) : r.remaining ≤ s.remaining := by
  obtain ⟨ts, hts, hrest⟩ := h.rest
  have hlen := hts.length_eq
  rw [Reader.remaining, Reader.remaining, Stream.remaining, Stream.remaining, hrest, length_append]
  omega

/-- The next token is alike in the surroundings. -/
theorem advance {t : Token} {rest : List Token} (h : r.Follows w s) (hr : r.stream.rest = t :: rest) :
    ∃ u rest', s.stream.rest = u :: rest' ∧ w.same t u ∧ (r.advance t rest).Follows w (s.advance u rest') := by
  obtain ⟨ts, hts, hrest⟩ := h.rest
  rw [hr] at hts
  rcases hts with _ | ⟨hsame, htail⟩
  exact ⟨_, _, hrest, hsame, ⟨_, htail, rfl⟩, h.helpers⟩

theorem peeks (h : r.Follows w s) (hsees : w.Sees r) : w.Peeks r.stream.rest.head? s.stream.rest.head? := by
  obtain ⟨ts, hts, hrest⟩ := h.rest
  rw [hrest]
  rcases hr : r.stream.rest with _ | ⟨t, rest⟩
  · rw [hr] at hts
    cases hts
    exact hsees hr
  · rw [hr] at hts
    rcases hts with _ | ⟨hsame, htail⟩
    exact hsame

theorem require (h : r.Follows w s) (helper : Helper) :
    ({ r with helpers := r.helpers.require helper } : Reader).Follows w
      { s with helpers := s.helpers.require helper } := by
  refine ⟨h.rest, ?_⟩
  have hs := h.helpers
  dsimp only
  rw [Prelude.require, Prelude.require]
  by_cases hw : helper ∈ w.helpers
  · -- Recorded before: the surroundings record nothing new, and the filter drops it.
    rw [if_pos (by rw [hs]; exact mem_append_left _ hw), hs]
    by_cases hr : helper ∈ r.helpers.used
    · rw [if_pos hr]
    · rw [if_neg hr, filter_append, filter_cons_of_neg (by simpa using hw),
        filter_nil, append_nil]
  · have hiff : helper ∈ s.helpers.used ↔ helper ∈ r.helpers.used := by
      rw [hs, mem_append, mem_filter]
      exact ⟨fun h => (h.resolve_left hw).1, fun h => .inr ⟨h, by simpa using hw⟩⟩
    by_cases hr : helper ∈ r.helpers.used
    · rw [if_pos hr, if_pos (hiff.mpr hr), hs]
    · rw [if_neg hr, if_neg (fun h => hr (hiff.mp h))]
      dsimp only
      rw [hs, filter_append, filter_cons_of_pos (by simpa using hw), filter_nil,
        append_assoc]

end Reader.Follows

/-! ## The judgement -/

namespace Parse

variable {α β γ δ : Type}

/-- If `p` gives a result for a reader that sees what it needs afterwards, then `q` gives one in the
surroundings of the reader, and `V` relates the two. -/
structure Local (w : Surroundings) (V : α → β → Prop) (p : Parse α) (q : Parse β) : Prop where
  total : ∀ {r a r'}, p r = .ok a r' → ∃ b, V a b
  ends : ∀ {r a r'}, p r = .ok a r' → r.stream.rest = [] → r'.stream.rest = []
  mirrors : ∀ {r s a r'}, r.Follows w s → p r = .ok a r' → w.Sees r' →
    ∃ b s', q s = .ok b s' ∧ V a b ∧ r'.Follows w s'

/-- The parser does the same in surroundings. -/
abbrev Stable (w : Surroundings) (p : Parse α) : Prop := Local w Eq p p

namespace Local

variable {w : Surroundings} {V : α → β → Prop} {W : γ → δ → Prop} {p : Parse α} {q : Parse β}

theorem pure {a : α} {b : β} (h : V a b) : Local w V (Pure.pure a) (Pure.pure b) where
  total := fun hp => by
    cases hp
    exact ⟨b, h⟩
  ends := fun hp hend => by
    cases hp
    exact hend
  mirrors := fun hf hp _ => by
    cases hp
    exact ⟨b, _, rfl, h, hf⟩

theorem never (h : ∀ r a r', p r ≠ .ok a r') : Local w V p q where
  total := fun hp => (h _ _ _ hp).elim
  ends := fun hp => (h _ _ _ hp).elim
  mirrors := fun _ hp => (h _ _ _ hp).elim

theorem throw {e : Stop} : Local w V (MonadExcept.throw e) q :=
  never fun _ _ _ hp => nomatch hp

/-- A sequence is local if its parts are. -/
theorem bind {f : α → Parse γ} {g : β → Parse δ} (h : Local w V p q)
    (hf : ∀ a b, V a b → Local w W (f a) (g b)) : Local w W (p >>= f) (q >>= g) where
  total := fun hp => by
    obtain ⟨a, r', hx, hp⟩ := bind_ok hp
    obtain ⟨b, hab⟩ := h.total hx
    exact (hf a b hab).total hp
  ends := fun hp hend => by
    obtain ⟨a, r', hx, hp⟩ := bind_ok hp
    obtain ⟨b, hab⟩ := h.total hx
    exact (hf a b hab).ends hp (h.ends hx hend)
  mirrors := fun hfollows hp hsees => by
    obtain ⟨a, r', hx, hp⟩ := bind_ok hp
    obtain ⟨b, hab⟩ := h.total hx
    -- The second half gets no tokens back, so the reader between the halves sees enough too.
    have hbetween : w.Sees r' := fun hend => hsees ((hf a b hab).ends hp hend)
    obtain ⟨b, s', hy, hab, hfollows'⟩ := h.mirrors hfollows hx hbetween
    obtain ⟨d, s'', hg, hW, hfollows''⟩ := (hf a b hab).mirrors hfollows' hp hsees
    exact ⟨d, s'', by rw [bind_of_ok g hy]; exact hg, hW, hfollows''⟩

theorem seq {q : Parse α} {f : α → Parse γ} {g : α → Parse δ} (h : Local w Eq p q)
    (hf : ∀ a, Local w W (f a) (g a)) : Local w W (p >>= f) (q >>= g) := by
  refine h.bind ?_
  rintro a _ rfl
  exact hf a

theorem ite {c d : Prop} [Decidable c] [Decidable d] {p' : Parse α} {q' : Parse β} (hcd : c ↔ d)
    (hpos : c → Local w V p q) (hneg : ¬ c → Local w V p' q') :
    Local w V (if c then p else p') (if d then q else q') :=
  ite_related hcd hpos hneg

end Local

/-! ## Single tokens -/

section Tokens

variable {w : Surroundings}

/-- The parser reads the next token and gives it. Without one it stops. -/
structure ReadsToken (p : Parse Token) : Prop where
  cons : ∀ {r t rest}, r.stream.rest = t :: rest → p r = .ok t (r.advance t rest)
  nil : ∀ {r t r'}, r.stream.rest = [] → p r ≠ .ok t r'

theorem readsToken_pop : ReadsToken pop where
  cons := pop_eq
  nil := fun {r t r'} hend hp => by
    rw [pop, Stream.pop, hend] at hp
    cases hp

theorem readsToken_next (wanted : Text) : ReadsToken (next wanted) where
  cons := next_eq wanted
  nil := fun {r t r'} hend hp => by
    rw [next_eq_nil wanted hend] at hp
    cases hp

/-- Reading a token gives one that is alike. -/
theorem ReadsToken.mirrors {p : Parse Token} (hp : ReadsToken p) {r s : Reader} (h : r.Follows w s) :
    Mirrors p r p s fun t u r' s' =>
      w.same t u ∧ r.stream.Reads [t] r'.stream ∧ r'.Follows w s' := by
  intro t r' hm _
  rcases hr : r.stream.rest with _ | ⟨t', rest⟩
  · exact absurd hm (hp.nil hr)
  · rw [hp.cons hr] at hm
    cases hm
    obtain ⟨u, rest', hs, hsame, hfollows⟩ := h.advance hr
    exact ⟨u, _, hp.cons hs, hsame, Reader.reads_advance hr, hfollows⟩

theorem ReadsToken.isLocal {p : Parse Token} (hp : ReadsToken p) : Local w w.same p p where
  total := fun {r t r'} _ => w.total t
  ends := fun hm hend => absurd hm (hp.nil hend)
  mirrors := fun hf hm _ => by
    obtain ⟨u, s', hm', hsame, -, hfollows⟩ := hp.mirrors hf _ _ hm trivial
    exact ⟨u, s', hm', hsame, hfollows⟩

theorem next_local (wanted : Text) : Local w w.same (next wanted) (next wanted) :=
  (readsToken_next wanted).isLocal

theorem peek?_local : Local w w.Peeks peek? peek? where
  total := fun {r o r'} _ => by
    rcases o with _ | t
    · exact ⟨none, fun _ hu => nomatch hu⟩
    · obtain ⟨u, hu⟩ := w.total t
      exact ⟨some u, hu⟩
  ends := fun hp hend => by
    rw [peek?_eq] at hp
    cases hp
    exact hend
  mirrors := fun {r s o r'} hf hp hsees => by
    rw [peek?_eq] at hp
    cases hp
    exact ⟨_, s, peek?_eq s, hf.peeks hsees, hf⟩

theorem peeks_getD {o o' : Option Token} (h : w.Peeks o o') {f : Token → Bool} {d : Bool}
    (hf : ∀ {t u}, w.same t u → f u = f t) (hmarker : ∀ u : Token, u.isMarker → f u = d) :
    (o'.map f).getD d = (o.map f).getD d := by
  rcases o with _ | t <;> rcases o' with _ | u
  · rfl
  · exact hmarker u (h u rfl)
  · exact h.elim
  · exact hf h

theorem atText_local (hp : Plain text) : Stable w (atText text) := by
  refine peek?_local.bind fun o o' h => Local.pure (Eq.symm ?_)
  refine peeks_getD h (fun hsame => (w.alike hsame).is_eq hp) fun u hu => ?_
  rw [Bool.eq_false_iff]
  intro his
  rw [Token.isMarker_of_is his, hp] at hu
  cases hu

theorem expect_local (hp : Plain text) : Stable w (expect text) := by
  refine (next_local text).bind fun t u h => ?_
  rw [(w.alike h).is_eq hp]
  exact Local.ite Iff.rfl (fun _ => Local.throw) fun _ => Local.pure rfl

/-- A token is read in both places or in none. -/
theorem popWhen_local {V : α → β → Prop} {test : Token → Bool} (hmarker : ∀ t, test t → t.isMarker = false)
    (htest : ∀ {t u}, w.same t u → test u = test t) {f : Token → Parse α} {f' : Token → Parse β} {g : Parse α}
    {g' : Parse β} (hf : ∀ t u, w.same t u → test t → Local w V (f t) (f' u)) (hg : Local w V g g') :
    Local w V (popWhen test f g) (popWhen test f' g') where
  total := fun hp => by
    rcases popWhen_ok hp with ⟨t, rest, -, ht, hp⟩ | ⟨-, hp⟩
    · obtain ⟨u, hu⟩ := w.total t
      exact (hf t u hu ht).total hp
    · exact hg.total hp
  ends := fun hp hend => by
    rcases popWhen_ok hp with ⟨t, rest, hr, -, -⟩ | ⟨-, hp⟩
    · rw [hend] at hr
      cases hr
    · exact hg.ends hp hend
  mirrors := fun {r s a r'} hfollows hp hsees => by
    rcases popWhen_ok hp with ⟨t, rest, hr, ht, hp⟩ | ⟨hno, hp⟩
    · obtain ⟨u, rest', hs, hsame, hfollows'⟩ := hfollows.advance hr
      rw [popWhen_of_cons hs (by rw [htest hsame]; exact ht)]
      exact (hf t u hsame ht).mirrors hfollows' hp hsees
    · have hpeeks := hfollows.peeks fun hend => hsees (hg.ends hp hend)
      have hno' : ∀ u ∈ s.stream.rest.head?, test u = false := by
        intro u hu
        rw [hu] at hpeeks
        rcases hr : r.stream.rest.head? with _ | t
        · -- Where the first run is at its end, a marker is next, and that fails the test too.
          rw [hr] at hpeeks
          rw [Bool.eq_false_iff]
          intro hu'
          have := hpeeks u rfl
          rw [hmarker u hu'] at this
          cases this
        · rw [hr] at hpeeks
          rw [htest hpeeks]
          exact hno t hr
      rw [popWhen_of_not hno']
      exact hg.mirrors hfollows hp hsees

theorem require_local (h : Helper) : Stable w (require h) where
  total := fun _ => ⟨_, rfl⟩
  ends := fun hp hend => by
    cases hp
    exact hend
  mirrors := fun hf hp _ => by
    cases hp
    exact ⟨_, _, rfl, rfl, hf.require h⟩

end Tokens

/-! ## Repetition -/

section Repetition

variable {w : Surroundings} {V : α → β → Prop}

theorem bounded_mirrors {p : Nat → Parse α} {q : Nat → Parse β} {r s : Reader}
    {W : α → β → Reader → Reader → Prop} (hf : r.Follows w s)
    (h : ∀ m n, m ≤ n → Mirrors (p m) r (q n) s W) : Mirrors (bounded p) r (bounded q) s W := by
  intro a r' hp
  have hle := hf.remaining_le
  exact h (8 * (r.remaining + 1)) (8 * (s.remaining + 1)) (by omega) a r' hp

/-- A larger budget does no harm. -/
theorem bounded_local {p : Nat → Parse α} {q : Nat → Parse β}
    (h : ∀ m n, m ≤ n → Local w V (p m) (q n)) : Local w V (bounded p) (bounded q) where
  total := fun hp => (h _ _ (Nat.le_refl _)).total hp
  ends := fun hp => (h _ _ (Nat.le_refl _)).ends hp
  mirrors := fun {r s a r'} hf hp hsees => by
    have hle := hf.remaining_le
    exact (h (8 * (r.remaining + 1)) (8 * (s.remaining + 1)) (by omega)).mirrors hf hp hsees

end Repetition

end Parse

end Offside
