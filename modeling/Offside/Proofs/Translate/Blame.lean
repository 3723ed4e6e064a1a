/-
Which token a clause blames, and what raw text can change in it.

Between two clauses the tokens ahead are whole lines, blocks and the markers that close them
(`Lines`). The number of open blocks is zero at the end, so a dedent always has a block to close.
-/
import Offside.Proofs.Layout.Opener
import Offside.Proofs.Parse.Blame
import Offside.Proofs.Translate.Run

set_option autoImplicit false

namespace Offside

open List Token Parse Fragment Session

variable {α β γ δ : Type}

/-! ## Lines and blocks -/

/-- Tokens that go on where a clause ends, when `level` blocks are open. -/
inductive Lines (P : Token → Prop) : Nat → List Token → Prop
  | done : Lines P 0 []
  | newline {level : Nat} {t : Token} {rest : List Token} (ht : t.is Marker.newline.text)
      (hnext : ∀ u ∈ rest.head?, u.isMarker = false) (h : Lines P level rest) : Lines P level (t :: rest)
  | dedent {level : Nat} {t : Token} {rest : List Token} (ht : t.is Marker.dedent.text)
      (h : Lines P level rest) : Lines P (level + 1) (t :: rest)
  | block {level : Nat} {t u : Token} {rest : List Token} (ht : t.is Marker.indent.text) (hP : P t)
      (hu : u.isMarker = false) (hraw : u.raw = false) (h : Lines P (level + 1) (u :: rest)) :
      Lines P level (t :: u :: rest)
  | rawBlock {level : Nat} {t u d : Token} {inner rest : List Token}
      (ht : t.is Marker.indent.text) (hP : P t) (hu : u.raw)
      (hinner : ∀ v ∈ inner, v.raw ∨ v.is Marker.newline.text)
      (hd : d.is Marker.dedent.text) (h : Lines P level rest) :
      Lines P level (t :: (u :: inner ++ d :: rest))
  | line {level : Nat} (L : Line P) {t : Token} {ts : List Token} (hwords : L.words = t :: ts)
      (hraw : t.raw = false) (hopens : ∀ u ∈ L.below.head?, u.raw → t.opensRaw)
      (h : Lines P level (L.mark :: L.below)) : Lines P level (L.words ++ L.mark :: L.below)

namespace Lines

variable {P : Token → Prop} {level : Nat} {t : Token} {rest : List Token}

/-- What stands below an indent: a line of the block that it opens, or a raw block up to the dedent
that closes it. -/
def Below (P : Token → Prop) (level : Nat) (rest : List Token) : Prop :=
  (∃ u us, rest = u :: us ∧ u.isMarker = false ∧ u.raw = false ∧ Lines P (level + 1) rest) ∨
    ∃ u inner d after, rest = u :: inner ++ d :: after ∧ u.raw ∧
      (∀ v ∈ inner, v.raw ∨ v.is Marker.newline.text) ∧
        d.is Marker.dedent.text ∧ Lines P level after

theorem eq_zero_of_nil (h : Lines P level []) : level = 0 := by
  generalize hts : ([] : List Token) = ts at h
  cases h with
  | done => rfl
  | line L hwords => rw [hwords] at hts; cases hts
  | _ => cases hts

/-- A marker ends a line, closes a block or opens one. -/
theorem of_marker (h : Lines P level (t :: rest)) (ht : t.isMarker) :
    (t.is Marker.newline.text ∧ (∀ u ∈ rest.head?, u.isMarker = false) ∧ Lines P level rest) ∨
    (t.is Marker.dedent.text ∧ ∃ k, level = k + 1 ∧ Lines P k rest) ∨
    (t.is Marker.indent.text ∧ P t ∧ Below P level rest) := by
  generalize hts : t :: rest = ts at h
  cases h with
  | done => cases hts
  | newline hnewline hnext h =>
    obtain ⟨rfl, rfl⟩ := cons.inj hts
    exact .inl ⟨hnewline, hnext, h⟩
  | dedent hdedent h =>
    obtain ⟨rfl, rfl⟩ := cons.inj hts
    exact .inr (.inl ⟨hdedent, _, rfl, h⟩)
  | block hindent hP hu hraw h =>
    obtain ⟨rfl, rfl⟩ := cons.inj hts
    exact .inr (.inr ⟨hindent, hP, .inl ⟨_, _, rfl, hu, hraw, h⟩⟩)
  | rawBlock hindent hP hu hinner hd h =>
    obtain ⟨rfl, rfl⟩ := cons.inj hts
    exact .inr (.inr ⟨hindent, hP, .inr ⟨_, _, _, _, rfl, hu, hinner, hd, h⟩⟩)
  | line L hwords =>
    -- A line starts with one of its words, which is no marker.
    rw [hwords] at hts
    obtain ⟨rfl, -⟩ := cons.inj hts
    rw [L.plain t (by rw [hwords]; exact mem_cons_self)] at ht
    cases ht

theorem of_newline (h : Lines P level (t :: rest)) (ht : t.is Marker.newline.text) :
    (∀ u ∈ rest.head?, u.isMarker = false) ∧ Lines P level rest := by
  rcases h.of_marker (isMarker_of_mark ht) with ⟨-, h⟩ | ⟨hd, -⟩ | ⟨hi, -⟩
  · exact h
  · exact absurd (marker_unique ht hd) (by decide)
  · exact absurd (marker_unique ht hi) (by decide)

theorem of_dedent (h : Lines P level (t :: rest)) (ht : t.is Marker.dedent.text) :
    ∃ k, level = k + 1 ∧ Lines P k rest := by
  rcases h.of_marker (isMarker_of_mark ht) with ⟨hn, -⟩ | ⟨-, h⟩ | ⟨hi, -⟩
  · exact absurd (marker_unique ht hn) (by decide)
  · exact h
  · exact absurd (marker_unique ht hi) (by decide)

theorem of_indent (h : Lines P level (t :: rest)) (ht : t.is Marker.indent.text) :
    P t ∧ Below P level rest := by
  rcases h.of_marker (isMarker_of_mark ht) with ⟨hn, -⟩ | ⟨hd, -⟩ | ⟨-, h⟩
  · exact absurd (marker_unique ht hn) (by decide)
  · exact absurd (marker_unique ht hd) (by decide)
  · exact h

theorem of_ordinary (h : Lines P level (t :: rest)) (ht : t.is Marker.indent.text)
    (hordinary : ∀ u ∈ rest.head?, u.raw = false) : Lines P (level + 1) rest := by
  rcases (h.of_indent ht).2 with ⟨u, us, -, -, -, hlines⟩ | ⟨u, inner, d, after, hraw, hu, -⟩
  · exact hlines
  · have hno := hordinary u (by rw [hraw]; rfl)
    rw [hu] at hno
    cases hno

/-- A word starts a line, which ends with a marker. -/
theorem of_plain (h : Lines P level (t :: rest)) (ht : t.isMarker = false) :
    ∃ (L : Line P) (ts : List Token), L.words = t :: ts ∧ rest = ts ++ L.mark :: L.below ∧ t.raw = false ∧
      (∀ u ∈ L.below.head?, u.raw → t.opensRaw) ∧ Lines P level (L.mark :: L.below) := by
  have hno : ∀ m : Marker, t.is m.text ≠ true := fun m hm => by
    rw [is_eq_false_of_isMarker ht m] at hm
    cases hm
  generalize hts : t :: rest = ts at h
  cases h with
  | done => cases hts
  | newline hnewline => cases hts; exact absurd hnewline (hno _)
  | dedent hdedent => cases hts; exact absurd hdedent (hno _)
  | block hindent | rawBlock hindent => cases hts; exact absurd hindent (hno _)
  | line L hwords hraw hopens h =>
    rw [hwords] at hts
    obtain ⟨rfl, rfl⟩ := cons.inj hts
    exact ⟨L, _, hwords, rfl, hraw, hopens, h⟩

end Lines

/-! ## Sessions inside a line -/

variable {before : Bool} {rest : List Token} {E : ParseError → Prop}

namespace Session

variable {P : Token → Prop}

def Resumes (P : Token → Prop) (s : Session) : Prop := Lines P s.scopes.depth s.stream.rest

/-- A clause is inside the line, which goes on at the level of the scopes that are open. -/
structure On (L : Line P) (s : Session) : Prop where
  ahead : L.Ahead s.reader
  lines : Lines P s.scopes.depth (L.mark :: L.below)

variable {L : Line P} {s s' : Session}

theorem On.of_same (h : s.On L) (hreader : s'.reader = s.reader) (htags : s'.scopes.tags = s.scopes.tags) :
    s'.On L where
  ahead := by rw [hreader]; exact h.ahead
  lines := by rw [Scopes.depth, htags]; exact h.lines

theorem On.indent {t : Token} (h : s.On L) (hrest : s.reader.stream.rest = t :: rest)
    (ht : t.is Marker.indent.text) : Lines P s.scopes.depth (t :: rest) := by
  obtain ⟨rfl, hbelow⟩ := (h.ahead.read hrest).of_marker (isMarker_of_mark ht)
  have hbelow : rest = L.below := hbelow
  rw [hbelow]
  exact h.lines

end Session

def Line.Ordinary {P : Token → Prop} (L : Line P) : Prop := ∀ u ∈ L.below.head?, u.raw = false

/-! ## Other texts -/

namespace Rewording

variable (g : Rewording)

def SparesAhead (before : Bool) (s : Session) : Prop := g.Spares before s.stream.seen.length s.stream.rest

def session (s : Session) : Session := { s with reader := g.reader s.reader }

@[simp] theorem remaining_session (s : Session) : (g.session s).remaining = s.remaining :=
  g.remaining_reader s.reader

theorem SparesAhead.next {g : Rewording} {s : Session} {t : Token} (h : g.SparesAhead before s)
    (hrest : s.reader.stream.rest = t :: rest) :
    g.SparesAhead (t.commentBehind before) (s.reading (s.reader.advance t rest)) := by
  have hrest : s.stream.rest = t :: rest := hrest
  rw [SparesAhead, hrest] at h
  exact h.2

theorem SparesAhead.of_reads {g : Rewording} {s s' : Session} {ts : List Token} (h : g.SparesAhead before s)
    (hreads : s.stream.Reads ts s'.stream) : ∃ before', g.SparesAhead before' s' := by
  rw [SparesAhead, hreads.1] at h
  obtain ⟨before', h⟩ := h.append
  refine ⟨before', ?_⟩
  rw [SparesAhead, hreads.2, length_append, length_reverse, Nat.add_comm]
  exact h

theorem sparesAhead_none (before : Bool) (s : Session) : none.SparesAhead before s := spares_none _ _ _

end Rewording

def Clause.Alike (c d : Clause) : Prop := silent d.fragment = silent c.fragment

def LabelLine.Alike (ls ls' : List LabelLine) : Prop :=
  silent (ls'.flatMap fragment) = silent (ls.flatMap fragment)

/-- The lines of two raw blocks. Unless they are comments they are the same. -/
structure RawAlike (comment : Bool) (lines lines' : List Text) : Prop where
  isEmpty : lines'.map List.isEmpty = lines.map List.isEmpty
  same : comment = false → lines' = lines

/-! ## Parts of the session -/

section

variable {E : ParseError → Prop} {g : Rewording} {p : Parse α} {q : Parse β} {s : Session}

theorem Agrees.lift {V : α → β → Reader → Prop} (h : Agrees g.reader E p q s.reader V) :
    Agrees g.session E (liftM p : Translate α) (liftM q : Translate β) s
      fun a b s' => ∃ r, V a b r ∧ s' = s.reading r := by
  rw [lift_eq, lift_eq]
  constructor
  · intro a s' hm
    rw [Translate.parse] at hm
    rcases hp : p s.reader with ⟨a', r⟩ | ⟨e, r⟩
    · rw [hp] at hm
      cases hm
      obtain ⟨b, hq, hV⟩ := h.result _ _ hp
      have hq : q (g.session s).reader = .ok b (g.reader r) := hq
      exact ⟨b, by rw [Translate.parse, hq]; rfl, r, hV, rfl⟩
    · rw [hp] at hm
      cases hm
  · intro e s' hm
    rw [Translate.parse] at hm
    rcases hp : p s.reader with ⟨a', r⟩ | ⟨e', r⟩
    · rw [hp] at hm
      cases hm
    · rw [hp] at hm
      cases hm
      obtain ⟨hq, hE⟩ := h.stop _ _ hp
      have hq : q (g.session s).reader = .error e (g.reader r) := hq
      exact ⟨by rw [Translate.parse, hq]; rfl, hE⟩

/-- A parser is followed by the rest of the clause. -/
theorem Agrees.parse {f : α → Translate γ} {f' : β → Translate δ} {V : α → β → Reader → Prop}
    {W : γ → δ → Session → Prop} (h : Agrees g.reader E p q s.reader V)
    (hf : ∀ a b r, V a b r → Agrees g.session E (f a) (f' b) (s.reading r) W) :
    Agrees g.session E ((liftM p : Translate α) >>= f) ((liftM q : Translate β) >>= f') s W := by
  refine (Agrees.lift h).seq ?_
  rintro a b _ ⟨r, hV, rfl⟩
  exact hf a b r hV

theorem Rejects.parse {f : α → Translate γ} {f' : α → Translate δ} {Q : α → Reader → Prop}
    {W : γ → δ → Session → Prop} (h : Rejects g.reader E p s.reader Q)
    (hf : ∀ a r, Q a r → Agrees g.session E (f a) (f' a) (s.reading r) W) :
    Agrees g.session E ((liftM p : Translate α) >>= f) ((liftM p : Translate α) >>= f') s W := by
  refine .parse h ?_
  rintro a _ r ⟨rfl, hQ⟩
  exact hf _ r hQ

end

namespace Translate

variable {P : Token → Prop} {L : Line P} {g : Rewording} {s : Session} {t : Token} {V : α → α → Prop}

/-- The programs lead to where the next clause may start, with results that `V` relates, or blame a
token with the property. -/
def Leads (g : Rewording) (P : Token → Prop) (V : α → α → Prop) (m n : Translate α) (s : Session) : Prop :=
  Agrees g.session (ParseError.Concerns P) m n s fun a b s' => V a b ∧ s'.Resumes P

def Returns (g : Rewording) (P : Token → Prop) (m : Translate Clause) (s : Session) : Prop :=
  Leads g P Clause.Alike m m s

theorem Leads.map {m n : Translate α} {f f' : α → β} {W : β → β → Prop} (h : Leads g P V m n s)
    (hf : ∀ a b, V a b → W (f a) (f' b)) :
    Leads g P W (m >>= fun a => Pure.pure (f a)) (n >>= fun b => Pure.pure (f' b)) s :=
  Agrees.seq h fun a b _ hab => .pure ⟨hf a b hab.1, hab.2⟩

theorem parse_returns {p : Parse β} {f f' : β → Translate α} (hp : L.Keeps p) (h : s.On L)
    (hf : ∀ a r, (s.reading r).On L → Leads g P V (f a) (f' a) (s.reading r)) :
    Leads g P V ((liftM p : Translate β) >>= f) ((liftM p : Translate β) >>= f') s :=
  Rejects.parse (hp g s.reader h.ahead) fun a r hr => hf a r ⟨hr, h.lines⟩

theorem trailing_returns {f : Option LineComment → Translate α} (h : s.On L)
    (hf : ∀ comment comment' r, silent (LineComment.trailing comment') =
      silent (LineComment.trailing comment) → (s.reading r).On L →
        Leads g P V (f comment) (f comment') (s.reading r)) :
    Leads g P V ((liftM trailingComment : Translate (Option LineComment)) >>= f)
      ((liftM trailingComment : Translate (Option LineComment)) >>= f) s := by
  refine .parse (trailingComment_agrees h.ahead) ?_
  rintro comment comment' r ⟨hsilent, hr⟩
  exact hf comment comment' r hsilent ⟨hr, h.lines⟩

/-- A token of the line may be read. -/
theorem next_returns {f f' : Token → Translate α} (wanted : Text) (h : s.On L)
    (hf : ∀ t rest, s.reader.stream.rest = t :: rest → L.Read t (s.reader.advance t rest) →
      Leads g P V (f t) (f' t) (s.reading (s.reader.advance t rest))) :
    Leads g P V ((liftM (Parse.next wanted) : Translate Token) >>= f)
      ((liftM (Parse.next wanted) : Translate Token) >>= f') s := by
  obtain ⟨t, rest, hrest, hread⟩ := h.ahead.next
  refine Rejects.parse (next_rejects wanted hrest hread.raw) ?_
  rintro _ _ ⟨rfl, rfl⟩
  exact hf _ rest hrest hread

/-- A token may be looked at. -/
theorem atText_returns {text : Text} {f f' : Bool → Translate α} (hf : ∀ b, (b = true →
    ∃ u rest, s.reader.stream.rest = u :: rest ∧ u.is text) → Leads g P V (f b) (f' b) s) :
    Leads g P V ((liftM (atText text) : Translate Bool) >>= f)
      ((liftM (atText text) : Translate Bool) >>= f') s := by
  refine Rejects.parse (atText_rejects text s.reader) ?_
  rintro b _ ⟨rfl, hb⟩
  exact hf b hb

theorem openScope_rejects (tag : Tag) (s : Session) : Rejects g.session E (openScope tag) s
    fun _ s' => s'.reader = s.reader ∧ s'.scopes.depth = s.scopes.depth + 1 := by
  cases hname : (Named.name tag).isEmpty with
  | true =>
    have hopen : ∀ s : Session, openScope tag s = .error (.violated Scopes.unnamed) s := by
      intro s
      rw [openScope, Scopes.push, hname, if_pos rfl]
    exact .of_violated (hopen s) (hopen (g.session s))
  | false => exact Rejects.of_eq (openScope_of_name s hname) (openScope_of_name (g.session s) hname) ⟨rfl, rfl⟩

theorem exists_tags {k : Nat} (h : s.scopes.depth = k + 1) :
    ∃ tag tags, s.scopes.tags = tag :: tags ∧ tags.length = k := by
  rcases htags : s.scopes.tags with _ | ⟨tag, tags⟩
  · rw [Scopes.depth, htags] at h
    cases h
  · rw [Scopes.depth, htags, length_cons, Nat.add_right_cancel_iff] at h
    exact ⟨tag, tags, rfl, h⟩

theorem closeScope_rejects {k : Nat} (h : s.scopes.depth = k + 1) :
    Rejects g.session E closeScope s fun _ s' => s'.reader = s.reader ∧ s'.scopes.depth = k := by
  obtain ⟨tag, tags, htags, hk⟩ := exists_tags h
  exact Rejects.of_eq (closeScope_of_tags htags) (closeScope_of_tags (s := g.session s) htags) ⟨rfl, hk⟩

/-! ## Ends of lines and blocks -/

theorem closeBlock_rejects {k : Nat} (t : Token) (h : s.scopes.depth = k + 1) :
    Rejects g.session E (closeBlock t) s fun _ s' => s'.reader = s.reader ∧ s'.scopes.depth = k := by
  obtain ⟨tag, tags, htags, hk⟩ := exists_tags h
  by_cases hgenerics : tag.bindsTypes → s.generics ≠ []
  · exact Rejects.of_eq (closeBlock_of_tags t htags hgenerics)
      (closeBlock_of_tags (s := g.session s) t htags hgenerics) ⟨rfl, hk⟩
  · exact .of_violated (closeBlock_violates t htags hgenerics)
      (closeBlock_violates (s := g.session s) t htags hgenerics)

/-- A dedent closes a block that is open. -/
theorem closing_returns {f f' : Closing → Clause} (hrest : s.stream.rest = rest)
    (h : Lines P s.scopes.depth (t :: rest)) (ht : t.is Marker.dedent.text)
    (hf : ∀ closing, (f closing).Alike (f' closing)) :
    Leads g P Clause.Alike (do return f (← closeBlock t)) (do return f' (← closeBlock t)) s := by
  obtain ⟨k, hk, hlines⟩ := h.of_dedent ht
  refine Rejects.seq (closeBlock_rejects t hk) ?_
  rintro closing s₁ ⟨hreader, hdepth⟩
  refine .pure ⟨hf closing, ?_⟩
  rw [Resumes, hdepth, Session.stream, hreader, ← Session.stream, hrest]
  exact hlines

/-- A statement ends its line. -/
theorem finish_returns (statement : Simple) (h : s.On L) : Returns g P (finish statement) s := by
  refine trailing_returns h fun comment comment' r₁ hsilent h₁ => ?_
  have halike : ∀ ending, (Clause.simple statement comment ending).Alike (.simple statement comment' ending) := by
    intro ending
    simp [Clause.Alike, Clause.fragment, hsilent]
  obtain ⟨t, rest, hrest, hread⟩ := h₁.ahead.next
  refine Rejects.parse (peek?_rejects hrest hread.raw) ?_
  rintro _ r ⟨rfl, rfl⟩
  refine Rejects.parse (pop_rejects hrest hread.raw) ?_
  rintro t _ ⟨rfl, rfl⟩
  have hread : L.Read t (r.advance t rest) := hread
  refine .ite (fun hnewline => ?_) fun _ => .ite (fun hdedent => ?_) fun _ => ?_
  · obtain ⟨rfl, rfl⟩ := hread.of_marker (isMarker_of_mark hnewline)
    exact .pure ⟨halike _, (h.lines.of_newline hnewline).2⟩
  · obtain ⟨rfl, rfl⟩ := hread.of_marker (isMarker_of_mark hdedent)
    exact closing_returns (f := fun closing => .simple statement comment (.closing closing)) rfl h.lines hdedent
      fun closing => halike _
  · exact .throw (ParseError.concerns_unexpected hread.shown)

/-- The indent at the end of a line opens a scope, and the block below it is where the next clause
starts. -/
theorem openScope_returns {a b : α} (tag : Tag) (hordinary : L.Ordinary)
    (h : Lines P s.scopes.depth (L.mark :: L.below)) (hindent : L.mark.is Marker.indent.text)
    (hbelow : s.reader.stream.rest = L.below) (hab : V a b) :
    Leads g P V (do openScope tag; return a) (do openScope tag; return b) s := by
  refine Rejects.seq (openScope_rejects tag s) ?_
  rintro _ s' ⟨hreader, hdepth⟩
  refine .pure ⟨hab, ?_⟩
  rw [Resumes, hdepth, Session.stream, hreader, hbelow]
  exact h.of_ordinary hindent hordinary

/-- A header opens a block. -/
theorem openBlock_returns (header : Header) (hordinary : L.Ordinary) (h : s.On L) :
    Returns g P (openBlock header) s := by
  refine parse_returns (expect_keeps (by rfl)) h fun _ r₁ h₁ => ?_
  refine trailing_returns h₁ fun comment comment' r₂ hsilent h₂ => ?_
  refine next_returns _ h₂ fun t rest hrest hread => ?_
  refine .guard (fun _ => ParseError.concerns_missing _ hread.shown) fun hindent => ?_
  rw [Bool.not_eq_true, Bool.not_eq_false'] at hindent
  obtain ⟨rfl, hbelow⟩ := hread.of_marker (isMarker_of_mark hindent)
  exact openScope_returns _ hordinary h.lines hindent hbelow (by simp [Clause.Alike, Clause.fragment, hsilent])

/-! ## Raw blocks -/

/-- Raw lines are read alike except for their texts. -/
theorem rawLinesIn_agrees {d : Token} {inner : List Token} {r : Reader} {comment : Bool} (n : Nat)
    (hinner : ∀ v ∈ inner, v.raw ∨ v.is Marker.newline.text) (hd : d.is Marker.dedent.text)
    (hrest : r.stream.rest = inner ++ d :: rest) (hspares : g.Spares comment r.stream.seen.length r.stream.rest) :
    Agrees g.reader E (rawLinesIn n) (rawLinesIn n) r
      fun lines lines' r' => RawAlike comment lines lines' ∧ r'.stream.rest = rest := by
  induction n generalizing inner r with
  | zero => exact .violated
  | succ n ih =>
    rw [rawLinesIn]
    rcases inner with _ | ⟨v, inner⟩
    · have hno : d.is Marker.newline.text ≠ true :=
        fun hn => absurd (marker_unique hd hn) (by decide)
      refine Rejects.seq (next_rejects _ hrest (is_iff.mp hd).1) ?_
      rintro _ _ ⟨rfl, rfl⟩
      rw [if_neg (by rw [(is_iff.mp hd).1]; exact Bool.false_ne_true), if_neg hno, if_pos hd]
      exact .pure ⟨⟨rfl, fun _ => rfl⟩, rfl⟩
    · obtain ⟨hv, hlater⟩ := forall_mem_cons.mp hinner
      have htail : (r.advance v (inner ++ d :: rest)).stream.rest = inner ++ d :: rest := rfl
      rw [hrest] at hspares
      obtain ⟨hkeep, hspares⟩ := hspares
      -- Raw lines and newlines do not end a comment, so the lines are spared as before.
      have hbehind : v.commentBehind comment = comment := by
        rcases hv with hraw | hnewline
        · exact commentBehind_of_raw hraw comment
        · exact commentBehind_of_isMarker (isMarker_of_mark hnewline) comment
      rw [hbehind] at hspares
      have hih := ih (r := r.advance v (inner ++ d :: rest)) hlater htail hspares
      refine .seq (V := fun a b r' => a = v ∧ b = g.token r.stream.seen.length v ∧
        r' = r.advance v (inner ++ d :: rest)) (.of_eq (Parse.next_eq _ hrest) (g.next_eq _ hrest)
          ⟨rfl, rfl, rfl⟩) ?_
      rintro v _ _ ⟨rfl, rfl, rfl⟩
      rw [g.raw_token, g.is_token, g.is_token]
      refine .ite (fun hraw => ?_) fun hraw => ?_
      · refine .seq hih ?_
        rintro lines lines' r' ⟨halike, hr'⟩
        refine .pure ⟨⟨?_, fun hcomment => ?_⟩, hr'⟩
        · rw [map_cons, map_cons, g.isEmpty_token, halike.isEmpty]
        · rw [hkeep hraw hcomment, halike.same hcomment]
      · rw [if_pos (hv.resolve_left hraw), if_pos (hv.resolve_left hraw)]
        exact hih

/-- What stands below an indent is read as a raw block, and rejected at its first word if it is
none. -/
theorem rawBlock_returns {comment : Bool} (tag : Tag) (hrest : s.reader.stream.rest = t :: rest)
    (ht : t.is Marker.indent.text) (h : Lines P s.scopes.depth (t :: rest))
    (hspares : g.SparesAhead comment s) : Leads g P (RawAlike comment) (rawBlock tag) (rawBlock tag) s := by
  rw [rawBlock, discard_bind]
  refine Rejects.parse (next_rejects _ hrest (is_iff.mp ht).1) ?_
  rintro t _ ⟨rfl, rfl⟩
  refine Rejects.seq (openScope_rejects _ _) ?_
  rintro _ s₂ ⟨hreader, hdepth⟩
  have hreader : s₂.reader = s.reader.advance t rest := hreader
  have hbelow : s₂.reader.stream.rest = rest := by rw [hreader]; rfl
  have hspares := hspares.next hrest
  rw [commentBehind_of_isMarker (isMarker_of_mark ht)] at hspares
  rcases (h.of_indent ht).2 with ⟨u, us, hus, hplain, hraw, hlines⟩ | ⟨u, inner, d, after, hall, hu, hinner, hd,
    hlines⟩
  · -- The first word of a line that is none of a raw block.
    have hP : P u := by
      rw [hus] at hlines
      obtain ⟨L, ts, hwords, -⟩ := hlines.of_plain hplain
      exact L.shown u (by rw [hwords]; exact mem_cons_self) hraw
    have hno := is_eq_false_of_isMarker hplain
    have hlines : ∀ n, Rejects g.reader (ParseError.Concerns P) (rawLinesIn n) s₂.reader
        fun _ _ => False := by
      rintro (_ | n)
      · exact .violated
      · rw [rawLinesIn]
        refine Rejects.seq (next_rejects _ (hbelow.trans hus) hraw) ?_
        rintro _ _ ⟨rfl, rfl⟩
        rw [if_neg (by rw [hraw]; exact Bool.false_ne_true), hno .newline, hno .dedent]
        exact .throw (ParseError.concerns_unexpected hP)
    exact Rejects.parse (bounded_agrees hlines) fun _ _ h => h.elim
  · have hbody : s₂.reader.stream.rest = (u :: inner) ++ d :: after := hbelow.trans hall
    have hall : ∀ v ∈ u :: inner, v.raw ∨ v.is Marker.newline.text :=
      forall_mem_cons.mpr ⟨.inl hu, hinner⟩
    have hspares₂ : g.Spares comment s₂.reader.stream.seen.length s₂.reader.stream.rest := by
      rw [hreader]
      exact hspares
    refine .parse (bounded_agrees fun n => rawLinesIn_agrees n hall hd hbody hspares₂) ?_
    rintro lines lines' r₃ ⟨halike, h₃⟩
    rw [discard_bind, discard_bind]
    refine Rejects.seq (closeScope_rejects (k := s.scopes.depth) hdepth) ?_
    rintro _ s₄ ⟨hr₄, hs₄⟩
    refine .pure ⟨halike, ?_⟩
    rw [Resumes, hs₄, Session.stream, hr₄, h₃]
    exact hlines

/-- A comment leaves whole lines ahead, with its block or without one. -/
theorem comment_returns (hsign : t.isCommentSign) (hwithin : L.Within t s.reader)
    (h : Lines P s.scopes.depth (L.mark :: L.below)) (hspares : g.SparesAhead true s) :
    Returns g P (comment t) s := by
  refine atText_returns ?_
  rintro (_ | _) hb
  · refine .parse (lineComment_agrees hsign hwithin) ?_
    rintro line line' r ⟨hsilent, hr⟩
    refine .pure ⟨hsilent, ?_⟩
    rw [Resumes, Session.stream, hr]
    exact h
  · obtain ⟨u, rest, hrest, hu⟩ := hb rfl
    -- The indent is the marker of the line, since no word of the line is one.
    obtain ⟨ts, hsuffix, hahead⟩ := hwithin
    have hlines : Lines P s.scopes.depth (u :: rest) := by
      rcases ts with _ | ⟨v, ts⟩
      · rw [hrest, nil_append] at hahead
        rw [hahead]
        exact h
      · rw [hrest, cons_append] at hahead
        obtain ⟨rfl, -⟩ := cons.inj hahead
        have hplain := L.plain u (hsuffix.subset (by simp))
        rw [isMarker_of_mark hu] at hplain
        cases hplain
    refine (rawBlock_returns .comment hrest hu hlines hspares).map fun lines lines' halike => ?_
    simp [Clause.Alike, Clause.fragment, Clause.silent_copiedLines _ halike.isEmpty]

theorem copyFrom_returns (level : Int) (h : s.On L) (hspares : g.SparesAhead false s) :
    Returns g P (copyFrom level) s := by
  refine atText_returns ?_
  rintro (_ | _) hb
  · refine Rejects.parse (Q := fun _ _ => False) ?_ fun _ _ h => h.elim
    refine (missingNext_rejects _ h.ahead).seq ?_
    rintro e _ ⟨he, rfl⟩
    exact .throw he
  · obtain ⟨u, rest, hrest, hu⟩ := hb rfl
    refine .seq (rawBlock_returns .passthrough hrest hu (h.indent hrest hu) hspares) ?_
    rintro lines lines' s₁ ⟨halike, h₁⟩
    obtain rfl := halike.same rfl
    exact .modify rfl (.pure ⟨rfl, h₁⟩)

theorem passthrough_returns (t : Token) (h : s.On L) (hspares : g.SparesAhead false s) :
    Returns g P (passthrough t) s := by
  rw [passthrough_eq]
  refine atText_returns ?_
  rintro (_ | _) hb
  · exact copyFrom_returns _ h hspares
  · obtain ⟨u, rest, hrest, hu⟩ := hb rfl
    have hread := h.ahead.read hrest
    have hcode : u.IsCode := isCode_of_is hu (by rfl)
    have hspares := hspares.next hrest
    rw [commentBehind_of_word hcode.raw hcode.marker, hcode.sign] at hspares
    refine Rejects.parse (pop_rejects hrest hread.raw) ?_
    rintro opener _ ⟨rfl, rfl⟩
    exact copyFrom_returns _ ⟨hread.ahead hcode, h.lines⟩ hspares

/-! ## Forms -/

theorem complete_returns (f : Form) (hordinary : L.Ordinary) (h : s.On L) : Returns g P f.complete s := by
  cases f with
  | line jumps statement =>
    cases jumps with
    | true => exact .modify rfl (finish_returns _ (h.of_same rfl rfl))
    | false => exact finish_returns _ h
  | block header => exact openBlock_returns _ hordinary h
  | userType header =>
    refine .seq (openBlock_returns _ hordinary h) fun clause clause' s₁ h₁ => ?_
    exact .modify rfl (.pure h₁)

theorem complaint?_ne_noOpenBlock {l : Lexeme} {previous : Option Tag} {reason : Text}
    (h : complaint? l previous = some reason) : reason ≠ ParseError.noOpenBlock := by
  unfold complaint? at h
  split at h
  · split at h <;> cases h
    decide
  · split at h <;> cases h
    decide
  · split at h <;> cases h
    decide
  · cases h

/-- So does a continuation. -/
theorem continuation_returns (hread : L.Read t s.reader) (hordinary : L.Ordinary)
    (h : Lines P s.scopes.depth (L.mark :: L.below)) : Returns g P (continuation t.lexeme t) s := by
  refine .get ?_
  have hscopes : (g.session s).scopes = s.scopes := rfl
  rw [hscopes]
  split
  · next reason hreason =>
    exact .throw (ParseError.concerns_context hread.shown (complaint?_ne_noOpenBlock hreason))
  · refine .modify rfl (.get (Rejects.parse (form_keeps t _ g s.reader hread) ?_))
    exact fun f r hr => complete_returns f hordinary ⟨hr, h⟩

/-! ## Labels -/

/-- A label opens its block, or goes on with the next line, which is there while a block is open. -/
theorem labelEnd_returns {more : Token → Translate (List LabelLine)} (label : Label)
    (hordinary : L.Ordinary) (hopen : s.scopes.depth ≠ 0) (h : s.On L)
    (hmore : ∀ (t : Token) (L' : Line P) (r : Reader), P t → L'.Ordinary → (s.reading r).On L' →
        Leads g P LabelLine.Alike (more t) (more t) (s.reading r)) :
    Leads g P LabelLine.Alike (labelEnd more label) (labelEnd more label) s := by
  refine parse_returns (expect_keeps (by rfl)) h fun _ r₁ h₁ => ?_
  refine trailing_returns h₁ fun comment comment' r₂ hsilent h₂ => ?_
  have halike : ∀ level lines lines', LabelLine.Alike lines lines' →
      LabelLine.Alike (⟨label, comment, level⟩ :: lines) (⟨label, comment', level⟩ :: lines') := by
    intro level lines lines' hlines
    rw [LabelLine.Alike] at hlines ⊢
    simp [LabelLine.fragment, hsilent, hlines]
  refine next_returns _ h₂ fun marker rest hrest hread => ?_
  dsimp only
  refine .ite (fun hindent => ?_) fun _ => .ite (fun hnewline => ?_) fun _ => ?_
  · obtain ⟨rfl, hbelow⟩ := hread.of_marker (isMarker_of_mark hindent)
    exact openScope_returns _ hordinary h.lines hindent hbelow (halike _ [] [] rfl)
  · obtain ⟨rfl, hbelow⟩ := hread.of_marker (isMarker_of_mark hnewline)
    obtain ⟨hplain, hlines⟩ := h.lines.of_newline hnewline
    rcases hus : L.below with _ | ⟨u, us⟩
    · rw [hus] at hlines
      exact absurd hlines.eq_zero_of_nil hopen
    rw [hus] at hplain hlines hbelow
    obtain ⟨L', ts, hwords, rfl, hraw, hopens, hlines'⟩ := hlines.of_plain (hplain u rfl)
    have hu : P u := L'.shown u (by rw [hwords]; exact mem_cons_self) hraw
    refine Rejects.parse (next_rejects _ hbelow hraw) ?_
    rintro u r₄ ⟨rfl, hr₄⟩
    refine .guard (fun _ => ParseError.concerns_missing _ hu) fun hlabel => ?_
    rw [Bool.not_eq_true, Bool.not_eq_false', Bool.or_eq_true] at hlabel
    -- A label is code, and no raw block stands below its line.
    have hcode : u.IsCode := hlabel.elim (fun h => isCode_of_is h (by rfl))
      fun h => isCode_of_is h (by rfl)
    have hno : u.opensRaw = false := by
      rw [opensRaw, hcode.sign, Bool.false_or]
      rcases hlabel with hl | hl <;> rw [Token.is, (is_iff.mp hl).2, Bool.and_eq_false_iff] <;>
        exact .inr (by decide)
    have hread' : L'.Read u r₄ := ⟨hraw, hu, .inl ⟨ts, by rw [hwords], by rw [hr₄]; rfl⟩⟩
    refine (hmore u L' r₄ hu (fun v hv => ?_) ⟨hread'.ahead hcode, hlines'⟩).map fun lines lines' => halike _ _ _
    rw [Bool.eq_false_iff]
    intro hv'
    rw [hopens v hv hv'] at hno
    cases hno
  · exact .throw (ParseError.concerns_missing _ hread.shown)

/-- So do labels, by induction on the budget. -/
theorem labelsIn_returns (n : Nat) (ht : P t) (hordinary : L.Ordinary) (h : s.On L) :
    Leads g P LabelLine.Alike (labelsIn n t) (labelsIn n t) s := by
  induction n generalizing s t L with
  | zero => exact .violated
  | succ n ih =>
    rw [labelsIn_succ]
    refine .get (.guard (fun _ => ParseError.concerns_context ht ?_) fun htop => ?_)
    · rw [append_assoc]
      exact ParseError.append_ne_noOpenBlock (by decide) (by decide) _
    have hopen : ∀ r : Reader, (s.reading r).scopes.depth ≠ 0 := by
      intro r hzero
      have htop : s.scopes.tags.head? = some .switchBlock := Classical.not_not.mp htop
      rw [eq_nil_of_length_eq_zero hzero] at htop
      cases htop
    by_cases hcase : t.is "case"
    · rw [if_pos hcase]
      refine parse_returns expressionList_keeps h fun values r h₁ => ?_
      exact labelEnd_returns _ hordinary (hopen r) h₁ fun t' L' r' ht' hL' h' => ih ht' hL' h'
    · rw [if_neg hcase]
      exact labelEnd_returns _ hordinary (hopen s.reader) h fun t' L' r' ht' hL' h' => ih ht' hL' h'

theorem labels_returns (ht : P t) (hordinary : L.Ordinary) (h : s.On L) : Returns g P (labels t) s := by
  have hforget : ({ s with scopes := s.scopes.forget } : Session).On L := h.of_same rfl rfl
  refine .modify rfl (.get ?_)
  rw [g.remaining_session]
  exact (labelsIn_returns _ ht hordinary hforget).map fun lines lines' halike => halike

/-! ## Clauses -/

theorem lexeme_of_opensRaw (h : t.opensRaw) :
    t.lexeme = .shape .punctuation ∨ t.lexeme = .keyword (.statement .passthroughWord) := by
  rw [opensRaw, Bool.or_eq_true] at h
  rcases h with h | h
  · exact .inl (lexeme_of_isCommentSign h)
  · obtain ⟨hraw, htext⟩ := is_iff.mp h
    rw [lexeme_eq hraw, htext]
    exact .inr (by decide +kernel)

theorem ordinary_of_lexeme {l : Lexeme} (hopens : ∀ u ∈ L.below.head?, u.raw → t.opensRaw)
    (hlex : t.lexeme = l) (hsign : l ≠ .shape .punctuation)
    (hword : l ≠ .keyword (.statement .passthroughWord)) : L.Ordinary := by
  intro u hu
  rw [Bool.eq_false_iff]
  intro hraw
  rcases lexeme_of_opensRaw (hopens u hu hraw) with h | h
  · exact hsign (hlex.symm.trans h)
  · exact hword (hlex.symm.trans h)

/-- A clause that starts with a word of a line. After an attribute another word of the line starts
one. -/
theorem clauseIn_returns (n : Nat) (hwithin : L.Within t s.reader) (hraw : t.raw = false)
    (h : Lines P s.scopes.depth (L.mark :: L.below)) (hopens : ∀ u ∈ L.below.head?, u.raw → t.opensRaw)
    (hspares : g.SparesAhead t.isCommentSign s) : Returns g P (clauseIn n t) s := by
  induction n generalizing s t with
  | zero => exact .violated
  | succ n ih =>
    have hmem : t ∈ L.words := by
      obtain ⟨ts, hsuffix, -⟩ := hwithin
      exact hsuffix.subset mem_cons_self
    have hmarker := L.plain t hmem
    have hP := L.shown t hmem hraw
    rw [clauseIn_succ]
    refine Rejects.seq (Q := fun _ s' => s'.reader = s.reader ∧ s'.scopes = s.scopes)
      (Rejects.of_eq rfl rfl ⟨rfl, rfl⟩) ?_
    rintro first s₁ ⟨hreader, hscopes⟩
    have hspares : g.SparesAhead t.isCommentSign s₁ := by
      rw [Rewording.SparesAhead, Session.stream, hreader]
      exact hspares
    have hread : L.Read t s₁.reader := ⟨hraw, hP, .inl (by rw [hreader]; exact hwithin)⟩
    have hlines : Lines P s₁.scopes.depth (L.mark :: L.below) := by rw [hscopes]; exact h
    have hon : t.isCommentSign = false → ∀ s₂ : Session, s₂.reader = s₁.reader →
        s₂.scopes.tags = s₁.scopes.tags → s₂.On L :=
      fun hsign s₂ hr hs => On.of_same ⟨hread.ahead ⟨hraw, hmarker, hsign⟩, hlines⟩ hr hs
    refine .guard (fun _ => ParseError.concerns_unexpected hP) fun _ => ?_
    have hnoSign : ∀ {l : Lexeme}, t.lexeme = l → l ≠ .shape .punctuation → t.isCommentSign = false := by
      intro l hlex hne
      rw [Bool.eq_false_iff]
      exact fun hsign => hne (hlex.symm.trans (lexeme_of_isCommentSign hsign))
    unfold clauseFrom
    split
    · next m hlex =>
      rw [isMarker_of_mark (is_of_lexeme_marker hlex)] at hmarker
      cases hmarker
    · refine .ite (fun hsign => ?_) fun _ => .throw (ParseError.concerns_unexpected hP)
      rw [hsign] at hspares
      refine comment_returns hsign ?_ hlines hspares
      rw [hreader]
      exact hwithin
    · next hlex =>
      have hordinary := ordinary_of_lexeme hopens hlex (by simp) (by simp)
      refine .modify rfl (.modify rfl ?_)
      have h₂ := hon (hnoSign hlex (by simp)) { s₁ with scopes := s₁.scopes.forget, terminated := false } rfl rfl
      refine atText_returns ?_
      rintro (_ | _) -
      · -- The next word of the line starts the clause that the attribute belongs to.
        refine next_returns _ h₂ fun after rest hrest hafter => ?_
        refine .guard (fun _ => ParseError.concerns_unexpected hafter.shown) fun hno => ?_
        rw [Bool.or_eq_true, not_or, category_isLineMarker] at hno
        have hin : L.Within after (s₁.reader.advance after rest) := hafter.place.resolve_right fun hmark => by
          rw [hmark.1, L.isMarker] at hno
          exact hno.2 rfl
        have hspares := hspares.next hrest
        rw [commentBehind_of_word hafter.raw (by simpa using hno.2)] at hspares
        refine (ih (s := { s₁ with
          reader := s₁.reader.advance after rest, scopes := s₁.scopes.forget, terminated := false }) hin hafter.raw
            hlines (fun u hu hraw => ?_) hspares).map fun c c' halike => congrArg (List.cons _) halike
        rw [hordinary u hu] at hraw
        cases hraw
      · exact openBlock_returns _ hordinary h₂
    · next hlex =>
      have hsign := hnoSign hlex (by simp)
      rw [hsign] at hspares
      exact .modify rfl (.modify rfl (passthrough_returns t (hon hsign _ rfl rfl) hspares))
    case h_5 hlex | h_6 hlex =>
      exact .modify rfl (labels_returns hP (ordinary_of_lexeme hopens hlex (by simp) (by simp))
        (hon (hnoSign hlex (by simp)) _ rfl rfl))
    · next hpunct _ hpass _ _ =>
      refine .modify rfl (continuation_returns hread (ordinary_of_lexeme hopens rfl hpunct hpass) ?_)
      exact hlines

/-- So does a marker. -/
theorem marker_returns {m : Marker} (n : Nat) (ht : t.is m.text) (hrest : s.stream.rest = rest)
    (h : Lines P s.scopes.depth (t :: rest)) : Returns g P (clauseIn (n + 1) t) s := by
  rw [clauseIn_succ]
  refine Rejects.seq (Q := fun _ s' => s'.reader = s.reader ∧ s'.scopes = s.scopes)
    (Rejects.of_eq rfl rfl ⟨rfl, rfl⟩) ?_
  rintro first s₁ ⟨hreader, hscopes⟩
  have hrest₁ : s₁.stream.rest = rest := by rw [Session.stream, hreader]; exact hrest
  rw [← hscopes] at h
  rw [if_neg (by rw [(is_iff.mp ht).1]; exact Bool.false_ne_true), clauseFrom,
    lexeme_of_is_marker ht]
  cases m with
  | begin =>
    -- No line and no block starts with the marker of the start.
    rcases h.of_marker (isMarker_of_mark ht) with ⟨hm, -⟩ | ⟨hm, -⟩ | ⟨hm, -⟩ <;>
      exact absurd (marker_unique ht hm) (by decide)
  | newline =>
    refine .pure ⟨rfl, ?_⟩
    rw [Resumes, hrest₁]
    exact (h.of_newline ht).2
  | dedent => exact closing_returns hrest₁ h ht fun closing => rfl
  | indent => exact .throw (ParseError.concerns_unexpected (h.of_indent ht).1)

/-- A clause leads from lines to lines, or blames a token of them. With other texts in comments it
does the same. -/
theorem clause_returns (hrest : s.stream.rest = t :: rest) (h : s.Resumes P) (hspares : g.SparesAhead before s) :
    Returns g P (clause t) (s.start t rest) := by
  rw [Resumes, hrest] at h
  refine .get ?_
  rw [g.remaining_session]
  by_cases hmarker : t.isMarker
  · obtain ⟨m, hm⟩ := isMarker_iff.mp hmarker
    exact marker_returns _ hm rfl h
  · rw [Bool.not_eq_true] at hmarker
    obtain ⟨L, ts, hwords, hts, hraw, hopens, hlines⟩ := h.of_plain hmarker
    have hspares := hspares.next hrest
    rw [commentBehind_of_word hraw hmarker] at hspares
    exact clauseIn_returns _ ⟨ts, by rw [hwords], hts⟩ hraw hlines hopens hspares

end Translate

end Offside
