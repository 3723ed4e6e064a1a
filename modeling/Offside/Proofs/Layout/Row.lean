/-
The tokens of rows, and where each of them says it stands.

`Token.LaidOut` says that line, level and depth of a token are what a reader of the list alone would
find out: the level counts indents less dedents, and the depth is one in a raw block.
-/
import Mathlib.Data.List.Chain
import Offside.Layout.Row
import Offside.Proofs.Layout.Word

set_option autoImplicit false

namespace Offside

open List Token

/-! ## What a reader of tokens finds out -/

variable {a b row : Row} {raw : Bool} {t : Token} {rows : List Row} {ts us after : List Token}
variable {line : Int} {u : Token} {before : List Token}

namespace Token

/-- The tokens `before` end inside a raw block that goes on with `after`: some indent is followed by
a raw token, and no dedent has come since. -/
def InRawBlock (before after : List Token) : Prop :=
  ∃ outer opener inner, before = outer ++ opener :: inner ∧
    opener.is Marker.indent.text ∧
    (∃ t ts, inner ++ after = t :: ts ∧ t.raw) ∧
    ∀ t ∈ inner, t.is Marker.dedent.text = false

/-- The tokens of a source of so many lines, with their places. -/
structure LaidOut (lines : Nat) (tokens : List Token) : Prop where
  /-- The marker of the start comes first, and only there. -/
  first : ∃ t ts, tokens = t :: ts ∧ t.is Marker.begin.text ∧
    ∀ u ∈ ts, u.is Marker.begin.text = false
  level : ∀ before t after, tokens = before ++ t :: after →
    t.level = balance (before ++ [t]) ∧ 0 ≤ t.level
  balance : balance tokens = 0
  sorted : tokens.Pairwise fun t u => t.line ≤ u.line
  line : ∀ t ∈ tokens, 1 ≤ t.line ∧ t.line ≤ lines
  depth : ∀ before t after, tokens = before ++ t :: after →
    (InRawBlock (before ++ [t]) after ∧ t.depth = 1) ∨
      (¬ InRawBlock (before ++ [t]) after ∧ t.depth = 0)

/-- What is known after some tokens. -/
structure Place where
  level : Int
  inRaw : Bool
  line : Int

namespace Place

def move (p : Place) (t : Token) (next : Option Token) : Place where
  level := p.level + balance [t]
  inRaw := !t.is Marker.dedent.text &&
    (p.inRaw || (t.is Marker.indent.text && (next.map Token.raw).getD false))
  line := t.line

end Place

def Tracks (p : Place) : List Token → Prop
  | [] => True
  | t :: ts =>
    t.level = (p.move t ts.head?).level ∧ 0 ≤ t.level ∧
      t.depth = (if (p.move t ts.head?).inRaw then 1 else 0) ∧ p.line ≤ t.line ∧
      Tracks (p.move t ts.head?) ts

variable {p : Place}

/-- A tracked token has the level that the markers before it give. -/
theorem Tracks.level (h : Tracks p ts) (hts : ts = before ++ t :: after) :
    t.level = p.level + balance (before ++ [t]) ∧ 0 ≤ t.level := by
  induction before generalizing p ts with
  | nil =>
    subst hts
    exact ⟨h.1, h.2.1⟩
  | cons u before ih =>
    subst hts
    obtain ⟨hlevel, hpos⟩ := ih h.2.2.2.2 rfl
    refine ⟨?_, hpos⟩
    rw [hlevel, cons_append, balance_cons u]
    have hmove : ∀ next, (p.move u next).level = p.level + balance [u] := fun _ => rfl
    rw [hmove]
    omega

theorem Tracks.le_line (h : Tracks p ts) : ∀ t ∈ ts, p.line ≤ t.line := by
  induction ts generalizing p with
  | nil => intro t ht; cases ht
  | cons u ts ih =>
    obtain ⟨-, -, -, hline, htracks⟩ := h
    intro t ht
    rcases mem_cons.mp ht with rfl | ht
    · exact hline
    · have hmove : u.line ≤ t.line := ih htracks t ht
      omega

/-- Tracked tokens are in the order of their lines. -/
theorem Tracks.sorted (h : Tracks p ts) : ts.Pairwise fun t u => t.line ≤ u.line := by
  induction ts generalizing p with
  | nil => exact List.Pairwise.nil
  | cons u ts ih => exact List.Pairwise.cons h.2.2.2.2.le_line (ih h.2.2.2.2)

/-- A raw block that is open after a token was opened by it or is open after the others. -/
theorem inRawBlock_cons : InRawBlock (u :: ts) after ↔
      (u.is Marker.indent.text ∧ ((ts ++ after).head?.map Token.raw).getD false ∧
        ∀ t ∈ ts, t.is Marker.dedent.text = false) ∨ InRawBlock ts after := by
  have hhead : ∀ us : List Token, (us.head?.map Token.raw).getD false ↔
      ∃ t rest, us = t :: rest ∧ t.raw := by
    intro us
    rcases us with _ | ⟨t, rest⟩
    · exact ⟨fun h => (by cases h), fun ⟨_, _, h, _⟩ => (by cases h)⟩
    · exact ⟨fun h => ⟨t, rest, rfl, h⟩, fun ⟨_, _, h, hraw⟩ => (by cases h; exact hraw)⟩
  rw [hhead]
  constructor
  · rintro ⟨outer, opener, inner, heq, hopener, hraw, hinner⟩
    rcases outer with _ | ⟨v, outer⟩
    · obtain ⟨rfl, rfl⟩ := cons.inj heq
      exact .inl ⟨hopener, hraw, hinner⟩
    · obtain ⟨rfl, rfl⟩ := cons.inj heq
      exact .inr ⟨outer, opener, inner, rfl, hopener, hraw, hinner⟩
  · rintro (⟨hopener, hraw, hinner⟩ | ⟨outer, opener, inner, rfl, hopener, hraw, hinner⟩)
    · exact ⟨[], u, ts, rfl, hopener, hraw, hinner⟩
    · exact ⟨u :: outer, opener, inner, rfl, hopener, hraw, hinner⟩

theorem not_inRawBlock_nil (after : List Token) : ¬ InRawBlock [] after := by
  rintro ⟨outer, opener, inner, heq, -⟩
  cases append_eq_nil_iff.mp heq.symm |>.2

theorem is_dedent_of_is_indent (h : t.is Marker.indent.text) :
    t.is Marker.dedent.text = false := is_eq_false_of_is h (by decide)

theorem Place.move_inRaw {next : Option Token} : (p.move t next).inRaw ↔ t.is Marker.dedent.text = false ∧
      (p.inRaw ∨ t.is Marker.indent.text ∧ (next.map Token.raw).getD false) := by
  rw [Place.move, Bool.and_eq_true, Bool.or_eq_true, Bool.and_eq_true, Bool.not_eq_true']

/-- A reader who starts at `p` is in a raw block after `ts`: in one that was open at the start and
has not been closed, or in one that has been opened since. -/
def OpenAfter (p : Place) (ts after : List Token) : Prop :=
  (p.inRaw ∧ ∀ t ∈ ts, t.is Marker.dedent.text = false) ∨ InRawBlock ts after

theorem openAfter_cons : OpenAfter p (u :: ts) after ↔ OpenAfter (p.move u (ts ++ after).head?) ts after := by
  unfold OpenAfter
  rw [inRawBlock_cons, Place.move_inRaw, forall_mem_cons]
  constructor
  · rintro (⟨hp, hu, hts⟩ | ⟨hu, hraw, hts⟩ | h)
    · exact .inl ⟨⟨hu, .inl hp⟩, hts⟩
    · exact .inl ⟨⟨is_dedent_of_is_indent hu, .inr ⟨hu, hraw⟩⟩, hts⟩
    · exact .inr h
  · rintro (⟨⟨hu, hp | ⟨hindent, hraw⟩⟩, hts⟩ | h)
    · exact .inl ⟨hp, hu, hts⟩
    · exact .inr (.inl ⟨hindent, hraw, hts⟩)
    · exact .inr (.inr h)

theorem openAfter_nil : OpenAfter p [] after ↔ p.inRaw := by
  constructor
  · rintro (⟨hp, -⟩ | h)
    · exact hp
    · exact absurd h (not_inRawBlock_nil after)
  · intro hp
    exact .inl ⟨hp, fun t ht => nomatch ht⟩

/-- A tracked token has depth one just in a raw block. -/
theorem Tracks.depth (h : Tracks p ts) (hts : ts = before ++ t :: after) :
    (OpenAfter p (before ++ [t]) after ∧ t.depth = 1) ∨ (¬ OpenAfter p (before ++ [t]) after ∧ t.depth = 0) := by
  induction before generalizing p ts with
  | nil =>
    subst hts
    obtain ⟨-, -, hdepth, -⟩ := h
    rw [nil_append, openAfter_cons, openAfter_nil, nil_append]
    by_cases hraw : (p.move t after.head?).inRaw
    · rw [if_pos hraw] at hdepth
      exact .inl ⟨hraw, hdepth⟩
    · rw [if_neg hraw] at hdepth
      exact .inr ⟨hraw, hdepth⟩
  | cons u before ih =>
    subst hts
    have hrest := ih h.2.2.2.2 rfl
    rw [cons_append, openAfter_cons, append_assoc]
    exact hrest

/-! ## Segments of a token list -/

theorem Tracks.of_line {q : Place} (h : Tracks q ts) (hlevel : q.level = p.level) (hraw : q.inRaw = p.inRaw)
    (hline : p.line ≤ q.line) : Tracks p ts := by
  rcases ts with _ | ⟨t, ts⟩
  · trivial
  · have hmove : ∀ next, p.move t next = q.move t next := by
      intro next
      rw [Place.move, Place.move, hlevel, hraw]
    rw [Tracks, hmove]
    obtain ⟨h₁, h₂, h₃, h₄, h₅⟩ := h
    exact ⟨h₁, h₂, h₃, by omega, h₅⟩

theorem tracks_plain (hts : ∀ t ∈ ts, t.isMarker = false ∧ t.level = p.level ∧
      t.depth = (if p.inRaw then 1 else 0) ∧ t.line = line) (hlevel : 0 ≤ p.level) (hline : p.line ≤ line)
    (hus : Tracks { p with line := line } us) : Tracks p (ts ++ us) := by
  induction ts generalizing p with
  | nil => exact hus.of_line rfl rfl hline
  | cons t ts ih =>
    obtain ⟨hmarker, htlevel, htdepth, htline⟩ := hts t mem_cons_self
    have hno := is_eq_false_of_isMarker hmarker
    have hmove : ∀ next, p.move t next = { p with line := line } := by
      intro next
      rw [Place.move, balance_other (hno .indent) (hno .dedent), hno .indent, hno .dedent, htline, Int.add_zero]
      simp
    rw [cons_append, Tracks, hmove]
    refine ⟨htlevel, by rw [htlevel]; exact hlevel, htdepth, by rw [htline]; exact hline, ?_⟩
    exact ih (fun u hu => hts u (mem_cons_of_mem _ hu)) hlevel (Int.le_refl _) hus

end Token

/-! ## Markers between rows -/

namespace Row

def place (row : Row) : Place := ⟨row.level, row.isVerbatim, row.line⟩

theorem marker_is (row : Row) (m : Marker) (level : Nat) (depth : Int) :
    (row.marker m level depth).is m.text := by
  rw [is_iff]
  exact ⟨rfl, rfl⟩

def dedents (row : Row) (level : Nat) : List Token :=
  (List.range (row.level - level)).map fun i => row.marker .dedent (row.level - 1 - i) 0

theorem closing_eq_dedents (row : Row) (level : Nat) :
    row.closing level = row.dedents level ++ [row.marker .newline level 0] := rfl

theorem length_dedents (row : Row) (level : Nat) : (row.dedents level).length = row.level - level := by
  rw [dedents, length_map, length_range]

theorem is_dedent_of_mem_dedents (row : Row) (level : Nat) :
    ∀ t ∈ row.dedents level, t.is Marker.dedent.text := by
  intro t ht
  obtain ⟨i, -, rfl⟩ := mem_map.mp ht
  exact row.marker_is .dedent _ _

/-- Dedents lead down to their level, one by one. -/
theorem tracks_dedents {level n : Nat} (hn : n ≤ level)
    (hus : Tracks ⟨(level - n : Nat), raw && n == 0, row.line⟩ us) : Tracks ⟨level, raw, row.line⟩
      ((List.range n).map (fun i => row.marker .dedent (level - 1 - i) 0) ++ us) := by
  induction n generalizing level raw with
  | zero =>
    rw [Nat.sub_zero, beq_self_eq_true, Bool.and_true] at hus
    exact hus
  | succ n ih =>
    rw [range_succ_eq_map, map_cons, map_map, cons_append, Tracks]
    have hdedent := row.marker_is .dedent (level - 1 - 0) 0
    have hmove : ∀ next, Place.move ⟨level, raw, row.line⟩
        (row.marker .dedent (level - 1 - 0) 0) next = ⟨(level - 1 : Nat), false, row.line⟩ := by
      intro next
      rw [Place.move, balance_dedent hdedent, hdedent]
      have hlevel : (level : Int) + -1 = (level - 1 : Nat) := by omega
      rw [hlevel]
      rfl
    rw [hmove]
    refine ⟨rfl, Int.natCast_nonneg _, rfl, Int.le_refl _, ?_⟩
    have hfun : ((fun i => row.marker .dedent (level - 1 - i) 0) ∘ Nat.succ)
        = fun i => row.marker .dedent (level - 1 - 1 - i) 0 := by
      funext i
      rw [Function.comp_apply, Nat.succ_eq_add_one, Nat.sub_sub (level - 1) 1 i, Nat.add_comm 1 i]
    rw [hfun]
    refine ih (by omega) ?_
    have hlevel : level - 1 - n = level - (n + 1) := by omega
    rw [hlevel, Bool.false_and]
    have hzero : (n + 1 == 0) = false := rfl
    rw [hzero, Bool.and_false] at hus
    exact hus

theorem tracks_newline {level : Nat} (hus : Tracks ⟨level, raw, row.line⟩ us) :
    Tracks ⟨level, raw, row.line⟩
      (row.marker .newline level (if raw then 1 else 0) :: us) := by
  have hnewline := row.marker_is .newline level (if raw then 1 else 0)
  have hmove : ∀ next, Place.move ⟨level, raw, row.line⟩
      (row.marker .newline level (if raw then 1 else 0)) next = ⟨level, raw, row.line⟩ := by
    intro next
    rw [Place.move, balance_newline hnewline, is_eq_false_of_is hnewline (b := .indent) (by decide),
      is_eq_false_of_is hnewline (b := .dedent) (by decide)]
    simp [marker]
  rw [Tracks, hmove]
  exact ⟨rfl, Int.natCast_nonneg _, rfl, Int.le_refl _, hus⟩

/-- The end of a row leads down to the level of the next. -/
theorem tracks_closing {level : Nat} (hle : level ≤ row.level) (hraw : row.isVerbatim → level < row.level)
    (hus : Tracks ⟨level, false, row.line⟩ us) : Tracks row.place (row.closing level ++ us) := by
  rw [closing, append_assoc]
  refine tracks_dedents (by omega) ?_
  have hlevel : row.level - (row.level - level) = level := by omega
  have hleft : (row.isVerbatim && row.level - level == 0) = false := by
    cases hv : row.isVerbatim with
    | false => rfl
    | true =>
      have := hraw hv
      rw [Bool.true_and, beq_eq_false_iff_ne]
      omega
  rw [hlevel, hleft]
  have hnewline := tracks_newline hus
  exact hnewline

theorem tracks_indent {level : Nat} (hrow : row.isVerbatim = false) (hlevel : level = row.level + 1)
    (hhead : (us.head?.map Token.raw).getD false = raw) (hus : Tracks ⟨level, raw, row.line⟩ us) :
    Tracks row.place (row.marker .indent level (if raw then 1 else 0) :: us) := by
  have hindent := row.marker_is .indent level (if raw then 1 else 0)
  have hmove : row.place.move (row.marker .indent level (if raw then 1 else 0)) us.head?
      = ⟨level, raw, row.line⟩ := by
    rw [Place.move, balance_indent hindent, hindent,
      is_dedent_of_is_indent hindent, hhead, place, hrow]
    have hl : (row.level : Int) + 1 = (level : Nat) := by omega
    rw [hl]
    rfl
  rw [Tracks, hmove]
  exact ⟨rfl, Int.natCast_nonneg _, rfl, Int.le_refl _, hus⟩

/-! ## Rows in order -/

/-- Row `b` may stand directly below row `a`. A raw block is one level deep, and ends above its own
level. -/
def Below (a b : Row) : Prop :=
  a.line < b.line ∧
    match a.isVerbatim, b.isVerbatim with
    | false, false => b.level ≤ a.level + 1
    | false, true => b.level = a.level + 1
    | true, true => b.level = a.level
    | true, false => b.level < a.level

/-- A row has no marker among its tokens, and unless it is verbatim starts with a token that is not
raw. -/
structure Sound (row : Row) : Prop where
  plain : ∀ t ∈ row.tokens, t.isMarker = false
  start : row.isVerbatim = false → ∃ t ts, row.tokens = t :: ts ∧ t.raw = false

def IsFirst (row : Row) : Prop := row.isVerbatim = false ∧ row.level = 0 ∧ 1 ≤ row.line

/-- Rows in the order of their lines. -/
structure Laid (rows : List Row) : Prop where
  first : ∀ row ∈ rows.head?, row.IsFirst
  chain : rows.IsChain Below
  sound : ∀ row ∈ rows, row.Sound

theorem mem_tokens (ht : t ∈ row.tokens) :
    t.level = row.level ∧ t.line = row.line ∧ t.depth = if row.isVerbatim then 1 else 0 := by
  cases row with
  | words line level ws =>
    obtain ⟨w, -, ht⟩ := mem_flatMap.mp ht
    rw [Word.tokens] at ht
    split at ht
    · cases ht
    · dsimp only at ht
      rcases mem_cons.mp ht with rfl | ht
      · exact ⟨rfl, rfl, rfl⟩
      · split at ht
        · cases ht
        · rw [mem_singleton.mp ht]
          exact ⟨rfl, rfl, rfl⟩
    · rw [mem_singleton.mp ht]
      exact ⟨rfl, rfl, rfl⟩
    · rw [mem_singleton.mp ht]
      exact ⟨rfl, rfl, rfl⟩
  | verbatim line level text =>
    rw [mem_singleton.mp ht]
    exact ⟨rfl, rfl, rfl⟩

theorem Sound.head?_raw (h : row.Sound) (us : List Token) :
    ((row.tokens ++ us).head?.map Token.raw).getD false = row.isVerbatim := by
  cases hv : row.isVerbatim with
  | true =>
    cases row with
    | words => cases hv
    | verbatim line level text => rfl
  | false =>
    obtain ⟨t, ts, htokens, hraw⟩ := h.start hv
    rw [htokens]
    exact hraw

theorem Sound.tracks (h : row.Sound) (hline : line ≤ row.line) (hus : Tracks row.place us) :
    Tracks ⟨row.level, row.isVerbatim, line⟩ (row.tokens ++ us) := by
  refine tracks_plain ?_ (Int.natCast_nonneg _) hline hus
  intro t ht
  obtain ⟨hlevel, htline, hdepth⟩ := mem_tokens ht
  exact ⟨h.plain t ht, hlevel, hdepth, htline⟩

/-- A row below another is tracked behind it. -/
theorem Below.tracks (h : Below a b) (hb : b.Sound) (hus : Tracks b.place us) :
    Tracks a.place (a.between b ++ b.tokens ++ us) := by
  obtain ⟨hline, hlevel⟩ := h
  have htokens : Tracks ⟨b.level, b.isVerbatim, a.line⟩ (b.tokens ++ us) :=
    hb.tracks (by omega) hus
  have hhead := hb.head?_raw us
  rw [between, append_assoc]
  revert hlevel htokens hhead
  cases hva : a.isVerbatim <;> cases hvb : b.isVerbatim <;> intro hlevel htokens hhead
  · -- From words to words, the level decides.
    rw [if_neg Bool.false_ne_true]
    by_cases hdeeper : b.level = a.level + 1
    · rw [if_pos hdeeper]
      exact tracks_indent hva hdeeper hhead htokens
    · rw [if_neg hdeeper]
      refine tracks_closing (by omega) (fun hv => ?_) htokens
      rw [hva] at hv
      cases hv
  · rw [if_pos rfl, if_neg Bool.false_ne_true]
    exact tracks_indent hva hlevel hhead htokens
  · rw [if_neg Bool.false_ne_true, if_neg (by omega)]
    exact tracks_closing (by omega) (fun _ => hlevel) htokens
  · rw [if_pos rfl, if_pos rfl]
    have hplace : a.place = ⟨b.level, true, a.line⟩ := by rw [place, hva, hlevel]
    rw [hplace]
    exact tracks_newline htokens

theorem Below.pos_level (h : Below a b) (ha : a.isVerbatim → 0 < a.level) (hb : b.isVerbatim) :
    0 < b.level := by
  obtain ⟨-, hl⟩ := h
  rw [hb] at hl
  cases hva : a.isVerbatim with
  | false => rw [hva] at hl; dsimp only at hl; omega
  | true =>
    have := ha hva
    rw [hva] at hl
    dsimp only at hl
    omega

/-- So are all rows, by induction on them. -/
theorem tracks_tokensAfter (hchain : (a :: rows).IsChain Below) (hsound : ∀ row ∈ rows, row.Sound)
    (hlevel : a.isVerbatim → 0 < a.level) : Tracks a.place (tokensAfter a rows) := by
  induction rows generalizing a with
  | nil =>
    have hclosing : Tracks a.place (a.closing 0 ++ []) :=
      tracks_closing (Nat.zero_le _) hlevel trivial
    rw [append_nil] at hclosing
    exact hclosing
  | cons b rows ih =>
    obtain ⟨hab, hchain⟩ := isChain_cons_cons.mp hchain
    refine hab.tracks (hsound b mem_cons_self) ?_
    exact ih hchain (fun row hrow => hsound row (mem_cons_of_mem _ hrow)) (hab.pos_level hlevel)

theorem marker_is_begin (row : Row) {m : Marker} (level : Nat) (depth : Int) (hm : m ≠ .begin) :
    (row.marker m level depth).is Marker.begin.text = false :=
  is_eq_false_of_is (row.marker_is m level depth) hm.symm

theorem mem_closing {level : Nat} (ht : t ∈ row.closing level) :
    t.line = row.line ∧ t.is Marker.begin.text = false := by
  rcases mem_append.mp ht with ht | ht
  · obtain ⟨i, -, rfl⟩ := mem_map.mp ht
    exact ⟨rfl, marker_is_begin _ _ _ (by decide)⟩
  · rw [mem_singleton.mp ht]
    exact ⟨rfl, marker_is_begin _ _ _ (by decide)⟩

theorem mem_between (ht : t ∈ a.between b) : t.line = a.line ∧ t.is Marker.begin.text = false := by
  rw [between] at ht
  split at ht
  · rw [mem_singleton.mp ht]
    refine ⟨rfl, marker_is_begin _ _ _ ?_⟩
    split <;> decide
  · split at ht
    · rw [mem_singleton.mp ht]
      exact ⟨rfl, marker_is_begin _ _ _ (by decide)⟩
    · exact mem_closing ht

theorem mem_tokensAfter (hsound : ∀ row ∈ rows, row.Sound) (ht : t ∈ tokensAfter a rows) :
    (∃ row ∈ a :: rows, t.line = row.line) ∧ t.is Marker.begin.text = false := by
  induction rows generalizing a with
  | nil =>
    obtain ⟨hline, hbegin⟩ := mem_closing ht
    exact ⟨⟨a, mem_cons_self, hline⟩, hbegin⟩
  | cons b rows ih =>
    rw [tokensAfter, mem_append, mem_append] at ht
    rcases ht with (ht | ht) | ht
    · obtain ⟨hline, hbegin⟩ := mem_between ht
      exact ⟨⟨a, mem_cons_self, hline⟩, hbegin⟩
    · have hplain := (hsound b mem_cons_self).plain t ht
      exact ⟨⟨b, by simp, (mem_tokens ht).2.1⟩, is_eq_false_of_isMarker hplain .begin⟩
    · obtain ⟨⟨row, hrow, hline⟩, hbegin⟩ :=
        ih (fun row hrow => hsound row (mem_cons_of_mem _ hrow)) ht
      exact ⟨⟨row, mem_cons_of_mem _ hrow, hline⟩, hbegin⟩

theorem getLast?_tokensAfter (a : Row) (rows : List Row) :
    ∃ row ∈ a :: rows, (tokensAfter a rows).getLast? = some (row.marker .newline 0 0) := by
  induction rows generalizing a with
  | nil => exact ⟨a, mem_cons_self, by rw [tokensAfter, closing, getLast?_concat]⟩
  | cons b rows ih =>
    obtain ⟨row, hrow, hlast⟩ := ih b
    refine ⟨row, mem_cons_of_mem _ hrow, ?_⟩
    rw [tokensAfter, getLast?_append, hlast]
    rfl

/-! ## All tokens -/

theorem start_is : start.is Marker.begin.text := rfl

theorem balance_start : balance [start] = 0 := rfl

/-- The tokens of a layout are tracked from the start. -/
theorem Laid.tracks (h : Laid rows) : Tracks ⟨0, false, 1⟩ (allTokens rows) := by
  have hstart : ∀ ts, Tracks ⟨0, false, 1⟩ ts →
      Tracks ⟨0, false, 1⟩ (start :: ts) := by
    intro ts hts
    have hmove : ∀ next, Place.move ⟨0, false, 1⟩ start next = ⟨0, false, 1⟩ := by
      intro next
      have hindent : start.is Marker.indent.text = false := rfl
      rw [Place.move, balance_start, hindent]
      simp [start]
    rw [Tracks, hmove]
    exact ⟨rfl, Int.le_refl _, rfl, Int.le_refl _, hts⟩
  rcases rows with _ | ⟨row, rows⟩
  · exact hstart [] trivial
  · refine hstart (row.tokens ++ tokensAfter row rows) ?_
    obtain ⟨hwords, hlevel, hline⟩ := h.first row rfl
    have hfirst : (1 : Int) ≤ row.line := Int.ofNat_le.mpr hline
    have hafter := tracks_tokensAfter h.chain
      (fun r hr => h.sound r (mem_cons_of_mem _ hr)) (fun hv => by rw [hwords] at hv; cases hv)
    have htokens := (h.sound row mem_cons_self).tracks hfirst hafter
    rw [hlevel, hwords] at htokens
    exact htokens

theorem getLast?_allTokens (rows : List Row) :
    ∃ t, (allTokens rows).getLast? = some t ∧ t.isMarker ∧ t.level = 0 ∧
      (rows ≠ [] → t.is Marker.newline.text) := by
  rcases rows with _ | ⟨row, rows⟩
  · exact ⟨start, rfl, isMarker_of_mark start_is, rfl, fun h => absurd rfl h⟩
  · obtain ⟨last, -, hlast⟩ := getLast?_tokensAfter row rows
    have hnewline := last.marker_is .newline 0 0
    refine ⟨_, ?_, isMarker_of_mark hnewline, rfl, fun _ => hnewline⟩
    rw [allTokens, getLast?_append, hlast]
    rfl

/-- So they are where a reader of the list alone would say. -/
theorem Laid.laidOut (h : Laid rows) {lines : Nat} (hlines : 1 ≤ lines) (hle : ∀ row ∈ rows, row.line ≤ lines) :
    LaidOut lines (allTokens rows) where
  first := by
    rcases rows with _ | ⟨row, rows⟩
    · exact ⟨start, [], rfl, start_is, fun u hu => nomatch hu⟩
    · refine ⟨start, row.tokens ++ tokensAfter row rows, rfl, start_is, ?_⟩
      intro u hu
      rcases mem_append.mp hu with hu | hu
      · have hplain := (h.sound row mem_cons_self).plain u hu
        exact is_eq_false_of_isMarker hplain .begin
      · exact (mem_tokensAfter (fun r hr => h.sound r (mem_cons_of_mem _ hr)) hu).2
  level := by
    intro before t after hsplit
    have hlevel := h.tracks.level hsplit
    rw [Int.zero_add] at hlevel
    exact hlevel
  balance := by
    obtain ⟨t, hlast, -, hlevel, -⟩ := getLast?_allTokens rows
    obtain ⟨before, hsplit⟩ := getLast?_eq_some_iff.mp hlast
    have hbalance := (h.tracks.level hsplit).1
    rw [hlevel, Int.zero_add, ← hsplit] at hbalance
    exact hbalance.symm
  sorted := h.tracks.sorted
  line := by
    intro t ht
    refine ⟨h.tracks.le_line t ht, ?_⟩
    rcases rows with _ | ⟨row, rows⟩
    · rw [mem_singleton.mp ht]
      exact Int.ofNat_le.mpr hlines
    · rcases mem_append.mp ht with ht | ht
      · rcases mem_cons.mp ht with rfl | ht
        · exact Int.ofNat_le.mpr hlines
        · rw [(mem_tokens ht).2.1]
          exact Int.ofNat_le.mpr (hle row mem_cons_self)
      · obtain ⟨⟨r, hr, hline⟩, -⟩ :=
          mem_tokensAfter (fun r hr => h.sound r (mem_cons_of_mem _ hr)) ht
        rw [hline]
        exact Int.ofNat_le.mpr (hle r hr)
  depth := by
    intro before t after hsplit
    -- No raw block is open before the first row.
    have hopen : OpenAfter ⟨0, false, 1⟩ (before ++ [t]) after ↔
        InRawBlock (before ++ [t]) after :=
      ⟨fun ho => ho.resolve_left fun hp => Bool.false_ne_true hp.1, .inr⟩
    rw [← hopen]
    exact h.tracks.depth hsplit

end Row

end Offside
