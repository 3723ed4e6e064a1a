/-
A clause does not depend on what stands around the source it belongs to.

What carries over from one clause to the next is in `Session.Follows`: tokens, scopes, type
parameters, and three pieces of memory that matter now and then. All else may differ, and a source
may even be put some levels deeper (`Placement`).
-/
import Offside.Proofs.Parse.Locality
import Offside.Proofs.Spelling.Clause
import Offside.Proofs.Translate.Run

set_option autoImplicit false

namespace Offside

open List Token Parse Translate Clause

/-! ## Where a source is put -/

structure Placement where
  /-- How many levels deeper the source is. -/
  rise : Int
  /-- The scopes that are open around it. -/
  outer : List Tag
  /-- Is this the newline that gives way to a dedent? -/
  closes : Token → Bool
  after : List Token
  helpers : List Helper
  /-- Has a clause of the source been translated already? -/
  begun : Bool
  newline : ∀ {t}, closes t → t.is Marker.newline.text
  around : ∀ tag ∈ outer, tag = .forLoop ∨ tag = .whileLoop ∨ tag = .function
  nonempty : ∀ {t}, closes t → outer ≠ []

variable {k m n : Nat} {tag : Tag} {text : Text} {t u : Token} {r : Reader} {ts rest after : List Token}
variable {begun : Bool} {r' : Reader} {cs : List Clause} {helpers : List Helper}

namespace Placement

def elsewhere (after : List Token) (helpers : List Helper) (begun : Bool) : Placement where
  rise := 0
  outer := []
  closes := fun _ => false
  after := after
  helpers := helpers
  begun := begun
  newline := fun h => nomatch h
  around := fun _ h => nomatch h
  nonempty := fun h => nomatch h

variable (w : Placement)

abbrev moved (t : Token) (line : Int) : Token := { t with line := line, level := t.level + w.rise }

def closer (t : Token) (line : Int) : Token :=
  { t with text := Marker.dedent.text, line := line, level := t.level + w.rise - 1 }

inductive Same : Token → Token → Prop
  | moved {t : Token} (line : Int) (h : w.closes t = false) : Same t (w.moved t line)
  | closer {t : Token} (line : Int) (h : w.closes t) : Same t (w.closer t line)

def Admits (c : Clause) : Prop := .function ∈ w.outer → c.constructs = false

def GoesOn : Prop := ∀ t, w.closes t = false

variable {w}

theorem same_elsewhere (line : Int) : (elsewhere after helpers begun).Same t { t with line := line } := by
  have hmoved : (elsewhere after helpers begun).moved t line = { t with line := line } := by
    rw [moved, elsewhere, Int.add_zero]
  rw [← hmoved]
  exact .moved line rfl

theorem closer_is (h : w.closes t) (line : Int) : (w.closer t line).is Marker.dedent.text :=
  is_iff.mpr ⟨(is_iff.mp (w.newline h)).1, rfl⟩

theorem isMarker_of_closes (h : w.closes t) : t.isMarker :=
  isMarker_of_mark (w.newline h)

theorem closes_of_plain (h : t.isMarker = false) : w.closes t = false := by
  rw [Bool.eq_false_iff]
  intro hcloses
  rw [isMarker_of_closes hcloses] at h
  cases h

theorem is_of_closes (h : w.closes t) (htext : text ≠ Marker.newline.text) : t.is text = false := by
  rw [Token.is, (is_iff.mp (w.newline h)).2, Bool.and_eq_false_iff]
  exact .inr (beq_eq_false_iff_ne.mpr (Ne.symm htext))

variable (w)

def surroundings : Surroundings where
  same := w.Same
  alike := by
    rintro t _ (⟨line, h⟩ | ⟨line, h⟩)
    · exact ⟨rfl, .inl rfl⟩
    · exact ⟨rfl, .inr ⟨isMarker_of_closes h, isMarker_of_mark (closer_is h line)⟩⟩
  total t := by
    cases h : w.closes t with
    | true => exact ⟨_, .closer t.line h⟩
    | false => exact ⟨_, .moved t.line h⟩
  after := w.after
  helpers := w.helpers

variable {w}

theorem Same.is_eq (h : w.Same t u) (hnewline : text ≠ Marker.newline.text) (hdedent : text ≠ Marker.dedent.text) :
    u.is text = t.is text := by
  cases h with
  | moved line h => rfl
  | closer line h =>
    have hcloser : (w.closer t line).is text = false := by
      rw [Token.is, Bool.and_eq_false_iff]
      exact .inr (beq_eq_false_iff_ne.mpr (Ne.symm hdedent))
    rw [hcloser, is_of_closes h hnewline]

end Placement

theorem Header.tag_ne_caseBody (header : Header) : header.tag ≠ .caseBody := by
  cases header with
  | userType header =>
    rw [tag]
    split <;> exact Tag.noConfusion
  | _ => exact Tag.noConfusion

/-! ## The end of a line is ahead -/

namespace Stream

variable {s s' : Stream}

def EndsLine (s : Stream) : Prop := ∀ t ∈ (s.rest.reverse ++ s.seen).head?, t.isMarker

def Midline (s : Stream) : Prop := ∃ t ∈ s.seen.head?, t.isMarker = false

/-- The end of the line stays ahead. -/
theorem EndsLine.read (h : s.EndsLine) (hread : s.Reads ts s') : s'.EndsLine := by
  have hall : s'.rest.reverse ++ s'.seen = s.rest.reverse ++ s.seen := by
    rw [hread.1, hread.2, reverse_append, append_assoc]
  rw [EndsLine, hall]
  exact h

/-- Inside a line there is a token ahead. -/
theorem Midline.rest_ne_nil (h : s.Midline) (hends : s.EndsLine) : s.rest ≠ [] := by
  intro hrest
  obtain ⟨t, ht, hplain⟩ := h
  rw [EndsLine, hrest] at hends
  rw [hends t ht] at hplain
  cases hplain

theorem Midline.pass (h : s.Midline) (hpass : s.Passes k s') : s'.Midline := by
  obtain ⟨ts, hread, -, hplain⟩ := hpass
  rcases eq_nil_or_concat ts with rfl | ⟨us, u, rfl⟩
  · rw [Midline, hread.2]
    exact h
  · refine ⟨u, ?_, hplain u (by simp)⟩
    rw [hread.2, concat_eq_append, reverse_append]
    rfl

end Stream

/-! ## Sessions in surroundings -/

namespace Session

/-- `t` is the session `s` where it is put. If the newline that gives way is still ahead then it is
the last token. -/
structure Follows (w : Placement) (s t : Session) : Prop where
  reader : s.reader.Follows w.surroundings t.reader
  ends : s.stream.EndsLine
  last : w.GoesOn ∨ ∃ before u, s.stream.rest = before ++ [u] ∧ w.closes u ∧
    ∀ v ∈ before, w.closes v = false
  tags : t.scopes.tags = s.scopes.tags ++ w.outer
  previous : s.scopes.previous = none ∨ t.scopes.previous = s.scopes.previous
  generics : t.generics = s.generics
  terminated : .caseBody ∈ s.scopes.tags → t.terminated = s.terminated
  trace : s.trace.isEmpty → t.trace.isEmpty
  begun : w.begun → s.trace.isEmpty = false

def Balanced (s : Session) : Prop := (s.scopes.tags.length : Int) + balance s.stream.rest = 0

/-- The same in the middle of a line. -/
structure Midway (w : Placement) (s t : Session) : Prop extends Follows w s t where
  midline : s.stream.Midline
  balanced : w.GoesOn ∨ s.Balanced

/-- The last token has been read, and a dedent in its place. -/
structure AtEnd (w : Placement) (s t : Session) : Prop where
  reader : s.reader.Follows w.surroundings t.reader
  rest : s.stream.rest = []
  tags : t.scopes.tags = s.scopes.tags ++ w.outer
  generics : t.generics = s.generics

/-- The same after the dedent has closed a scope around the source. -/
structure Ended (w : Placement) (s t : Session) : Prop where
  reader : s.reader.Follows w.surroundings t.reader
  rest : s.stream.rest = []
  tags : t.scopes.tags = w.outer.tail
  generics : t.generics = s.generics

section

variable {w : Placement} {s t : Session}

theorem Follows.read (h : s.Follows w t) (hread : s.reader.stream.Reads ts r.stream)
    (hts : ∀ v ∈ ts, w.closes v = false) (hr : r.Follows w.surroundings r') :
    (s.reading r).Follows w (t.reading r') :=
  { h with
    reader := hr
    ends := h.ends.read hread
    last := by
      refine h.last.imp_right ?_
      rintro ⟨before, u, hsplit, hu, hbefore⟩
      have hrest : before ++ [u] = ts ++ r.stream.rest := hsplit.symm.trans hread.1
      -- The last token is not among those that were read.
      rcases append_eq_append_iff.mp hrest with ⟨more, hts', hmore⟩ | ⟨more, hbefore', hmore⟩
      · cases more with
        | nil =>
          rw [nil_append] at hmore
          exact ⟨[], u, hmore.symm, hu, fun _ hv => nomatch hv⟩
        | cons v more =>
          obtain ⟨rfl, -⟩ := cons.inj hmore
          rw [hts u (by rw [hts']; simp)] at hu
          cases hu
      · refine ⟨more, u, hmore, hu, fun v hv => hbefore v ?_⟩
        rw [hbefore']
        exact mem_append_right _ hv }

/-- The newline that closes the source is its last token. -/
theorem Follows.nothing_after {before : List Token} (h : s.Follows w t)
    (hsplit : s.stream.rest = before ++ u :: after) (hu : w.closes u) : after = [] := by
  rcases h.last with hgoes | ⟨before', v, hrest, hv, hbefore⟩
  · rw [hgoes u] at hu
    cases hu
  rcases eq_nil_or_concat after with rfl | ⟨after', last, rfl⟩
  · rfl
  -- Otherwise the newline would be among the tokens before the last one.
  rw [hrest, concat_eq_append, ← cons_append, ← append_assoc] at hsplit
  have hmem : u ∈ before' := by
    rw [(append_inj' hsplit rfl).1]
    simp
  rw [hbefore u hmem] at hu
  cases hu

theorem Balanced.read (h : s.Balanced) (hread : s.reader.stream.Reads ts r.stream) (hts : balance ts = 0) :
    (s.reading r).Balanced := by
  have hrest : s.stream.rest = ts ++ r.stream.rest := hread.1
  rw [Balanced, hrest, balance_append, hts, Int.zero_add] at h
  exact h

/-- What is open in the source is open where it is put, and moreover loops and functions may be. -/
theorem Follows.view (h : s.Follows w t) :
    s.view.Within t.view ∧ (.function ∉ w.outer → t.view.inFunction = s.view.inFunction) := by
  have hcontains : ∀ tags, t.scopes.contains tags =
      (s.scopes.contains tags || w.outer.any fun tag => decide (tag ∈ tags)) := by
    intro tags
    rw [Scopes.contains, Scopes.contains, h.tags, any_append]
  have hgrows : ∀ tags, s.scopes.contains tags → t.scopes.contains tags := by
    intro tags hs
    rw [hcontains, hs, Bool.true_or]
  have hsame : ∀ tags, (∀ tag ∈ w.outer, tag ∉ tags) → t.scopes.contains tags = s.scopes.contains tags := by
    intro tags htags
    rw [hcontains, any_eq_false.mpr fun tag htag => by simpa using htags tag htag, Bool.or_false]
  have hother : ∀ tags, .forLoop ∉ tags → .whileLoop ∉ tags → .function ∉ tags →
      t.scopes.contains tags = s.scopes.contains tags := by
    intro tags hfor hwhile hfunction
    refine hsame tags fun tag htag => ?_
    rcases w.around tag htag with rfl | rfl | rfl <;> assumption
  refine ⟨⟨hgrows _, hgrows _, ?_⟩, fun hno => hsame _ fun tag htag hmem => ?_⟩
  · rw [Session.view, Session.view, hother [.userType, .template] (by decide) (by decide) (by decide),
      hother [.template] (by decide) (by decide) (by decide), h.generics]
  · rw [mem_singleton.mp hmem] at htag
    exact hno htag

theorem Follows.forget (h : s.Follows w t) :
    ({ s with scopes := s.scopes.forget } : Session).Follows w { t with scopes := t.scopes.forget } :=
  { h with
    previous := .inl rfl }

theorem Follows.setTerminated (h : s.Follows w t) (b : Bool) :
    ({ s with terminated := b } : Session).Follows w { t with terminated := b } :=
  { h with
    terminated := fun _ => rfl }

theorem Follows.setGenerics (h : s.Follows w t) (generics : List (List Text)) :
    ({ s with generics := generics } : Session).Follows w { t with generics := generics } :=
  { h with
    generics := rfl }

theorem Follows.record (h : s.Follows w t) (d d' : Dispatch) :
    ({ s with trace := d :: s.trace } : Session).Follows w { t with trace := d' :: t.trace } :=
  { h with
    trace := fun hempty => nomatch hempty
    begun := fun _ => rfl }

/-- A scope may be opened in both places. -/
theorem Follows.opened (h : s.Follows w t) (htag : tag = .caseBody → t.terminated = s.terminated) :
    ({ s with scopes := { s.scopes with tags := tag :: s.scopes.tags } } : Session).Follows w
      { t with scopes := { t.scopes with tags := tag :: t.scopes.tags } } :=
  { h with
    tags := by rw [h.tags, cons_append]
    terminated := by
      intro hmem
      rcases mem_cons.mp hmem with heq | hmem
      · exact htag heq.symm
      · exact h.terminated hmem }

/-- So may one be closed. -/
theorem Follows.closed {tags : List Tag} (h : s.Follows w t) (hopen : s.scopes.tags = tag :: tags) :
    ({ s with scopes := { tags := tags, previous := some tag } } : Session).Follows w
      { t with scopes := { tags := tags ++ w.outer, previous := some tag } } :=
  { h with
    tags := rfl
    previous := .inr rfl
    terminated := fun hmem => h.terminated (by rw [hopen]; exact mem_cons_of_mem _ hmem) }

/-- Inside a line a parser keeps the sessions related. -/
theorem Midway.pass (h : s.Midway w t) (hpass : s.reader.Passes k r) (hr : r.Follows w.surroundings r') :
    (s.reading r).Midway w (t.reading r') := by
  have hmidline : r.stream.Midline := h.midline.pass hpass
  obtain ⟨ts, hread, -, hplain⟩ := hpass
  have hcloses : ∀ v ∈ ts, w.closes v = false := fun v hv => Placement.closes_of_plain (hplain v hv)
  exact ⟨h.toFollows.read hread hcloses hr, hmidline,
    h.balanced.imp_right fun hb => hb.read hread (balance_plain hplain)⟩

theorem Midway.forget (h : s.Midway w t) :
    ({ s with scopes := s.scopes.forget } : Session).Midway w { t with scopes := t.scopes.forget } :=
  ⟨h.toFollows.forget, h.midline, h.balanced⟩

theorem Midway.setTerminated (h : s.Midway w t) (b : Bool) :
    ({ s with terminated := b } : Session).Midway w { t with terminated := b } :=
  ⟨h.toFollows.setTerminated b, h.midline, h.balanced⟩

end

end Session

/-! ## Parsers inside a clause -/

section

variable {α β γ δ : Type} {w : Placement} {s t : Session}
variable {p : Parse α} {f : α → Translate γ} {W : γ → δ → Session → Session → Prop} {D : γ → Prop}

theorem Mirrors.parse {q : Parse β} {g : β → Translate δ} {V : α → β → Reader → Reader → Prop}
    (h : Mirrors p s.reader q t.reader V)
    (hf : ∀ a b r r', V a b r r' → Mirrors (f a) (s.reading r) (g b) (t.reading r') W D) :
    Mirrors ((liftM p : Translate α) >>= f) s ((liftM q : Translate β) >>= g) t W D := by
  refine .bind (V := fun a b s' t' => ∃ r r', V a b r r' ∧ s' = s.reading r ∧ t' = t.reading r') ?_ ?_
  · intro a s' hm _
    obtain ⟨r, hp, rfl⟩ := lift_ok hm
    obtain ⟨b, r', hq, hV⟩ := h a r hp trivial
    exact ⟨b, _, lift_of_ok hq, r, r', hV, rfl, rfl⟩
  · rintro a b _ _ ⟨r, r', hV, rfl, rfl⟩
    exact hf a b r r' hV

variable {q : Parse α} {g : α → Translate δ}

namespace Session

theorem Midway.reads {a : α} (h : s.Midway w t) (hlocal : Parse.Local w.surroundings Eq p q)
    (hsafe : Safe p s.reader fun _ r => s.reader.Passes k r) (hp : p s.reader = .ok a r) :
    ∃ r', q t.reader = .ok a r' ∧ (s.reading r).Midway w (t.reading r') := by
  have hpass := hsafe.of_ok hp
  have hends : r.stream.EndsLine := by
    obtain ⟨ts, hread, -, -⟩ := hpass
    exact h.ends.read hread
  have hahead := (h.midline.pass hpass).rest_ne_nil hends
  obtain ⟨_, r', hq, rfl, hr⟩ := hlocal.mirrors h.reader hp fun hend => absurd hend hahead
  exact ⟨r', hq, h.pass hpass hr⟩

/-- It is followed by the rest of the clause. -/
theorem Midway.parse (h : s.Midway w t) (hlocal : Parse.Local w.surroundings Eq p q)
    (hsafe : Safe p s.reader fun _ r => s.reader.Passes k r)
    (hf : ∀ a r r', (s.reading r).Midway w (t.reading r') →
      Mirrors (f a) (s.reading r) (g a) (t.reading r') W) :
    Mirrors ((liftM p : Translate α) >>= f) s ((liftM q : Translate α) >>= g) t W := by
  refine .parse (V := fun a b r r' => a = b ∧
    (s.reading r).Midway w (t.reading r')) ?_ ?_
  · intro a r hp _
    obtain ⟨r', hq, h'⟩ := h.reads hlocal hsafe hp
    exact ⟨a, r', hq, rfl, h'⟩
  · rintro a _ r r' ⟨rfl, h'⟩
    exact hf a r r' h'

theorem Midway.look {F : Option Token → α} (h : s.Midway w t) (hp : ∀ r, p r = .ok (F r.stream.rest.head?) r)
    (hf : ∀ u u' rest, s.stream.rest = u :: rest → w.Same u u' → Mirrors (f (F (some u))) s (g (F (some u'))) t W D) :
    Mirrors ((liftM p : Translate α) >>= f) s ((liftM p : Translate α) >>= g) t W D := by
  rcases hrest : s.reader.stream.rest with _ | ⟨u, rest⟩
  · exact absurd hrest (h.midline.rest_ne_nil h.ends)
  obtain ⟨u', rest', hrest', hsame, -⟩ := h.reader.advance hrest
  have hs := hp s.reader
  have ht := hp t.reader
  rw [hrest, head?_cons] at hs
  rw [hrest', head?_cons] at ht
  rw [Mirrors, bind_of_ok f (lift_of_ok hs), bind_of_ok g (lift_of_ok ht)]
  exact hf u u' rest hrest hsame

/-- A test has the same answer in both places. -/
theorem Midway.test {p : Parse Bool} {F : Token → Bool} {d : Bool} {f : Bool → Translate γ}
    {g : Bool → Translate δ} (h : s.Midway w t) (hp : ∀ r, p r = .ok ((r.stream.rest.head?.map F).getD d) r)
    (hsame : ∀ {u u' : Token}, w.Same u u' → F u' = F u)
    (hf : ∀ b u rest, s.stream.rest = u :: rest → F u = b → Mirrors (f b) s (g b) t W D) :
    Mirrors ((liftM p : Translate Bool) >>= f) s ((liftM p : Translate Bool) >>= g) t W D := by
  refine h.look (F := fun o => (o.map F).getD d) hp fun u u' rest hrest hu => ?_
  rw [Option.map_some, Option.map_some, Option.getD_some, Option.getD_some, hsame hu]
  exact hf (F u) u rest hrest rfl

theorem Midway.atText {f : Bool → Translate γ} {g : Bool → Translate δ} (hnewline : text ≠ Marker.newline.text)
    (hdedent : text ≠ Marker.dedent.text) (h : s.Midway w t)
    (hf : ∀ b u rest, s.stream.rest = u :: rest → u.is text = b → Mirrors (f b) s (g b) t W D) :
    Mirrors ((liftM (Parse.atText text) : Translate Bool) >>= f) s
      ((liftM (Parse.atText text) : Translate Bool) >>= g) t W D :=
  h.test (atText_eq text) (fun hu => hu.is_eq hnewline hdedent) hf

/-- Reading one token needs nothing of the place it is read at. If it is the last one and a dedent
is in its place, then nothing is left to read. -/
theorem Follows.readToken {p : Parse Token} {f : Token → Translate γ} {g : Token → Translate δ} (h : s.Follows w t)
    (hp : Parse.ReadsToken p) (hf : ∀ u line r r', s.reader.stream.Reads [u] r.stream → w.closes u = false →
      (s.reading r).Follows w (t.reading r') →
      Mirrors (f u) (s.reading r) (g (w.moved u line)) (t.reading r') W D)
    (hclose : ∀ u line r r', s.reader.stream.Reads [u] r.stream → w.closes u →
      (s.reading r).AtEnd w (t.reading r') →
      Mirrors (f u) (s.reading r) (g (w.closer u line)) (t.reading r') W D) :
    Mirrors ((liftM p : Translate Token) >>= f) s ((liftM p : Translate Token) >>= g) t W D := by
  refine .parse (hp.mirrors h.reader) ?_
  rintro u _ r r' ⟨⟨line, hu⟩ | ⟨line, hu⟩, hread, hr⟩
  · exact hf u line r r' hread hu (h.read hread (by simpa using hu) hr)
  · have hsplit : s.stream.rest = [] ++ u :: r.stream.rest := hread.1
    exact hclose u line r r' hread hu ⟨hr, h.nothing_after hsplit hu, h.tags, h.generics⟩

theorem Follows.midway (h : (s.reading r).Follows w t)
    (hread : s.reader.stream.Reads [u] r.stream) (hu : u.isMarker = false) (hbalanced : w.GoesOn ∨ s.Balanced) :
    (s.reading r).Midway w t := by
  have hplain : balance [u] = 0 := balance_plain (by simpa using hu)
  refine ⟨h, ⟨u, ?_, hu⟩, hbalanced.imp_right fun hb => hb.read hread hplain⟩
  have hseen : r.stream.seen = [u].reverse ++ s.reader.stream.seen := hread.2
  change u ∈ r.stream.seen.head?
  rw [hseen]
  rfl

theorem Midway.pop {f : Token → Translate γ} {g : Token → Translate δ} (h : s.Midway w t)
    (hrest : s.stream.rest = u :: rest) (hu : u.isMarker = false)
    (hf : ∀ line r r', (s.reading r).Midway w (t.reading r') →
      Mirrors (f u) (s.reading r) (g (w.moved u line)) (t.reading r') W) :
    Mirrors ((liftM Parse.pop : Translate Token) >>= f) s
      ((liftM Parse.pop : Translate Token) >>= g) t W := by
  have hsame : ∀ {v : Token} {r : Reader}, s.reader.stream.Reads [v] r.stream → v = u := by
    intro v r hread
    have hv : s.stream.rest = v :: r.stream.rest := hread.1
    exact (cons.inj (hv.symm.trans hrest)).1
  refine h.toFollows.readToken readsToken_pop (fun v line r r' hread _ h₁ => ?_)
    fun v line r r' hread hv _ => ?_
  · obtain rfl := hsame hread
    exact hf line r r' (h₁.midway hread hu h.balanced)
  · obtain rfl := hsame hread
    rw [Placement.closes_of_plain hu] at hv
    cases hv

end Session

end

/-! ## Results -/

/-- The clause `c` ends its line at `level`, and `c'` is the same clause with a dedent to `upper`
there. -/
inductive Clause.Closed (level upper : Int) : Clause → Clause → Prop
  | newline : Closed level upper (.newline level) (.dedent (.block upper))
  | simple (statement : Simple) (comment : Option LineComment) :
    Closed level upper (.simple statement comment (.line level))
      (.simple statement comment (.closing (.block upper)))
  | attributed (word : Text) {c c' : Clause} (h : Closed level upper c c') :
    Closed level upper (.attributed word c) (.attributed word c')

namespace Placement

/-- What one run gives is what the other gives, put through `f`. -/
def Carries (w : Placement) {α : Type} (f : α → α) (a b : α) (s t : Session) : Prop := b = f a ∧ s.Follows w t

abbrev Moves (w : Placement) : Clause → Clause → Session → Session → Prop := w.Carries (raise w.rise)

/-- The clause is moved, or it is the last one and closes a scope around the source. -/
def Matches (w : Placement) (c c' : Clause) (s t : Session) : Prop :=
  w.Moves c c' s t ∨
    ∃ u, w.closes u ∧ Closed u.level (u.level + w.rise - 1) c c' ∧ s.Ended w t

end Placement

namespace Translate

variable {w : Placement} {s t : Session}

/-! ## Scopes -/

theorem openScope_mirrors (h : s.Follows w t) (htag : tag = .caseBody → t.terminated = s.terminated) :
    Mirrors (openScope tag) s (openScope tag) t (w.Carries id) := by
  intro _ s' hm _
  obtain ⟨hname, rfl⟩ := openScope_ok hm
  exact ⟨_, _, openScope_of_name t hname, rfl, h.opened htag⟩

theorem closeScope_mirrors (h : s.Follows w t) : Mirrors closeScope s closeScope t (w.Carries id) := by
  intro tag s' hm _
  obtain ⟨tags, htags, rfl⟩ := closeScope_ok hm
  exact ⟨_, _, closeScope_of_tags (by rw [h.tags, htags]; rfl), rfl, h.closed htags⟩

/-! ## Ends of lines and blocks -/

/-- A block is closed in both places. -/
theorem closeBlock_mirrors (u : Token) (line : Int) (h : s.Follows w t) :
    Mirrors (closeBlock u) s (closeBlock (w.moved u line)) t (w.Carries (Closing.raise w.rise)) := by
  intro c s' hm _
  obtain ⟨tag, tags, htags, hgenerics, rfl, rfl⟩ := closeBlock_ok hm
  rw [← h.generics] at hgenerics
  refine ⟨_, _, closeBlock_of_tags _ (by rw [h.tags, htags]; rfl) hgenerics, ?_, ?_⟩
  · by_cases hcase : tag = .caseBody
    · have hjumped := h.terminated (by rw [htags, hcase]; exact mem_cons_self)
      rw [Tag.closing, Tag.closing, if_pos hcase, if_pos hcase, hjumped]
      rfl
    · rw [Tag.closing, Tag.closing, if_neg hcase, if_neg hcase]
      rfl
  · have hleft := ((h.closed htags).setGenerics (if tag.bindsTypes then s.generics.tail else s.generics))
      |>.setTerminated false
    rw [Session.leave, Session.leave, h.generics]
    exact hleft

/-- The last newline closes the block around the source. -/
theorem closeBlock_outer (line : Int) (hu : w.closes u) (h : s.AtEnd w t) (htags : s.scopes.tags = []) :
    ∃ t', closeBlock (w.closer u line) t = .ok (.block (u.level + w.rise - 1)) t' ∧ s.Ended w t' := by
  obtain ⟨tag, tags, houter⟩ := exists_cons_of_ne_nil (w.nonempty hu)
  have hopen : t.scopes.tags = tag :: tags := by rw [h.tags, htags, houter, nil_append]
  have haround := w.around tag (by rw [houter]; exact mem_cons_self)
  obtain ⟨reader, ⟨open_, previous⟩, generics, terminated, trace⟩ := t
  obtain rfl : open_ = tag :: tags := hopen
  refine ⟨⟨reader, ⟨tags, some tag⟩, generics, false, trace⟩, ?_, h.reader, h.rest, ?_, h.generics⟩
  · rcases haround with rfl | rfl | rfl <;> rfl
  · rw [houter]
    rfl

theorem tags_eq_nil (h : w.GoesOn ∨ s.Balanced) (hread : s.reader.stream.Reads [u] r.stream)
    (hu : w.closes u) (hend : r.stream.rest = []) : s.scopes.tags = [] := by
  rcases h with hgoes | hbalanced
  · rw [hgoes u] at hu
    cases hu
  · have hrest : s.stream.rest = [u] := by
      have hsplit : s.stream.rest = u :: r.stream.rest := hread.1
      rw [hsplit, hend]
    rw [Session.Balanced, hrest, balance_newline (w.newline hu)] at hbalanced
    exact length_eq_zero_iff.mp (by omega)

/-- At the end of a statement there is a marker, so the statement does not end with the input. -/
theorem finish_mirrors (statement : Simple) (h : s.Midway w t) :
    Mirrors (finish statement) s (finish statement) t w.Matches := by
  refine h.parse trailingComment_local (trailingComment_safe s.reader) ?_
  intro comment r₁ r₁' h₁
  refine h₁.look (F := id) peek?_eq fun u u' rest hrest _ => ?_
  refine .ite Iff.rfl (fun hnone => ?_) fun _ => ?_
  · cases hnone
  refine h₁.toFollows.readToken readsToken_pop (fun u line r₂ r₂' _ _ h₂ => ?_)
    fun u line r₂ r₂' hread hu h₂ => ?_
  · refine .ite Iff.rfl (fun _ => .pure (.inl ⟨rfl, h₂⟩)) fun _ => ?_
    refine .ite Iff.rfl (fun _ => ?_) fun _ => .throw
    refine (closeBlock_mirrors u line h₂).bind ?_
    rintro closing _ s₃ t₃ ⟨rfl, h₃⟩
    exact .pure (.inl ⟨rfl, h₃⟩)
  · -- The newline ends the line in the one run, and the dedent closes a loop in the other.
    have hnone := tags_eq_nil (s := s.reading r₁) h₁.balanced hread hu h₂.rest
    obtain ⟨t', hclose, hended⟩ := closeBlock_outer line hu h₂ hnone
    have hno : (w.closer u line).is Marker.newline.text = false :=
      Bool.eq_false_iff.mpr fun his => nomatch marker_unique his (Placement.closer_is hu line)
    rw [if_pos (w.newline hu), hno, if_neg Bool.false_ne_true, if_pos (Placement.closer_is hu line)]
    intro clause s' hm _
    cases hm
    refine ⟨_, t', ?_, .inr ⟨u, hu, .simple statement comment, hended⟩⟩
    rw [bind_of_ok _ hclose]
    rfl

theorem openBlock_moves (header : Header) (h : s.Midway w t) :
    Mirrors (openBlock header) s (openBlock header) t w.Moves := by
  refine h.parse (expect_local (by rfl)) (expect_spec (by rfl) s.reader) ?_
  intro _ r₁ r₁' h₁
  refine h₁.parse trailingComment_local (trailingComment_safe r₁) ?_
  intro comment r₂ r₂' h₂
  refine h₂.toFollows.readToken (readsToken_next _) (fun u line r₃ r₃' _ _ h₃ => ?_)
    fun u line r₃ r₃' _ hu _ => ?_
  · refine .guard id fun _ => ?_
    refine (openScope_mirrors h₃ fun hcase => absurd hcase header.tag_ne_caseBody).bind ?_
    rintro _ _ s₄ t₄ ⟨-, h₄⟩
    exact .pure ⟨rfl, h₄⟩
  · -- A newline opens no block.
    have hno : (!u.is Marker.indent.text) := by
      rw [Placement.is_of_closes hu (by decide)]
      rfl
    exact .guard (fun _ => hno) fun hyes => absurd hno hyes

/-- A block is opened in both places. -/
theorem openBlock_mirrors (header : Header) (h : s.Midway w t) :
    Mirrors (openBlock header) s (openBlock header) t w.Matches :=
  (openBlock_moves header h).mono fun _ _ _ _ hmoves => .inl hmoves

/-! ## Raw blocks -/

/-- A raw block is read in both places. -/
theorem rawBlock_mirrors (tag : Tag) (htag : tag ≠ .caseBody) (h : s.Follows w t)
    (hindent : ∀ u rest, s.stream.rest = u :: rest → w.closes u = false) :
    Mirrors (rawBlock tag) s (rawBlock tag) t (w.Carries id) := by
  rw [rawBlock, discard_bind]
  refine h.readToken (readsToken_next _) (fun u line r₁ r₁' _ _ h₁ => ?_)
    fun u line r₁ r₁' hread hu _ => ?_
  · refine (openScope_mirrors h₁ fun hcase => absurd hcase htag).bind ?_
    rintro _ _ s₂ t₂ ⟨-, h₂⟩
    have hlines : Mirrors (bounded rawLinesIn) s₂.reader (bounded rawLinesIn)
        t₂.reader fun lines lines' r r' => lines = lines' ∧ r.Follows w.surroundings r' ∧
          ∃ ts, s₂.reader.stream.Reads ts r.stream ∧ ∀ v ∈ ts, w.closes v = false := by
      refine bounded_mirrors h₂.reader fun m n hmn => ?_
      refine rawLinesIn_mirrors ?_ w.newline hmn h₂.reader fun _ _ _ => h₂.nothing_after
      rintro v _ (⟨line, hv⟩ | ⟨line, hv⟩) hno
      · rfl
      · rw [hv] at hno
        cases hno
    refine .parse hlines ?_
    rintro lines _ r₃ r₃' ⟨rfl, hr₃, ts, hread, hts⟩
    rw [discard_bind]
    refine (closeScope_mirrors (h₂.read hread hts hr₃)).bind ?_
    rintro _ _ s₄ t₄ ⟨-, h₄⟩
    exact .pure ⟨rfl, h₄⟩
  · rw [hindent u r₁.stream.rest hread.1] at hu
    cases hu

theorem closes_of_indent {v : Token} (hrest : s.stream.rest = v :: rest) (hv : v.is Marker.indent.text) :
    ∀ u rest, s.stream.rest = u :: rest → w.closes u = false := by
  intro u rest' hrest'
  obtain ⟨rfl, -⟩ := cons.inj (hrest.symm.trans hrest')
  rw [Bool.eq_false_iff]
  intro hcloses
  rw [Placement.is_of_closes hcloses (by decide)] at hv
  cases hv

theorem comment_mirrors (line : Int) (hu : w.closes u = false) (h : s.Midway w t) :
    Mirrors (comment u) s (comment (w.moved u line)) t w.Matches := by
  refine h.atText (by decide) (by decide) ?_
  rintro (_ | _) v rest hrest hv
  · refine h.parse (lineComment_local (.moved line hu)) (lineComment_safe u s.reader) ?_
    intro comment r r' h₁
    exact .pure (.inl ⟨rfl, h₁.toFollows⟩)
  · refine (rawBlock_mirrors .comment Tag.noConfusion h.toFollows (closes_of_indent hrest hv)).bind ?_
    rintro lines _ s₁ t₁ ⟨rfl, h₁⟩
    exact .pure (.inl ⟨rfl, h₁⟩)

theorem copyFrom_mirrors (level : Int) (h : s.Midway w t) :
    Mirrors (copyFrom level) s (copyFrom (level + w.rise)) t w.Matches := by
  refine h.atText (by decide) (by decide) ?_
  rintro (_ | _) v rest hrest hv
  · exact .never fun clause s' => Ensures.rejectNext (Q := fun _ _ => False) clause s'
  · refine (rawBlock_mirrors .passthrough Tag.noConfusion h.toFollows
      (closes_of_indent hrest hv)).bind ?_
    rintro lines _ s₁ t₁ ⟨rfl, h₁⟩
    exact .modify (.pure (.inl ⟨rfl, h₁.setTerminated _⟩))

theorem passthrough_mirrors (u : Token) (line : Int) (h : s.Midway w t) :
    Mirrors (passthrough u) s (passthrough (w.moved u line)) t w.Matches := by
  rw [passthrough_eq, passthrough_eq]
  refine h.atText (by decide) (by decide) ?_
  rintro (_ | _) v rest hahead hv
  · exact copyFrom_mirrors _ h
  · have hplain : v.isMarker = false := by
      rw [isMarker_of_is hv]
      rfl
    exact h.pop hahead hplain fun line r r' h₁ => copyFrom_mirrors _ h₁

/-! ## Forms -/

/-- A form is completed in both places. -/
theorem complete_mirrors (f : Form) (h : s.Midway w t) : Mirrors f.complete s f.complete t w.Matches := by
  cases f with
  | line jumps statement =>
    cases jumps with
    | true => exact .modify (finish_mirrors _ (h.setTerminated true))
    | false => exact finish_mirrors _ h
  | block header => exact openBlock_mirrors _ h
  | userType header =>
    refine (openBlock_moves _ h).bind ?_
    rintro clause _ s₁ t₁ ⟨rfl, h₁⟩
    refine .modify (.pure (.inl ⟨rfl, ?_⟩))
    rw [h₁.generics]
    exact h₁.setGenerics _

theorem openBlock_header (header : Header) (s : Session) :
    Ensures (openBlock header) s fun c _ => c.header? = some header := by
  refine Ensures.skip fun _ r => Ensures.skip fun comment r => Ensures.skip fun t r => Ensures.guard fun _ => ?_
  exact Ensures.seq (P := fun _ _ => True) (fun _ _ _ => trivial) fun _ _ _ => Ensures.pure rfl

theorem continuation_mirrors (line : Int) (hu : w.closes u = false) (h : s.Midway w t) :
    Mirrors (continuation u.lexeme u) s (continuation u.lexeme (w.moved u line)) t w.Matches w.Admits := by
  refine .get ?_
  cases hs : complaint? u.lexeme s.scopes.previous with
  | some reason => exact .throw
  | none =>
    -- A block that the first session may continue is remembered by the second one too.
    have ht : complaint? u.lexeme t.scopes.previous = none := by
      rcases h.previous with hprevious | hprevious
      · rw [hprevious] at hs
        exact complaint?_of_none hs _
      · rw [hprevious, hs]
    rw [ht]
    obtain ⟨hwithin, hfunction⟩ := h.forget.view
    refine .modify (.get ?_)
    intro c s' hm hadmits
    obtain ⟨f, s₁, hform, hcomplete⟩ := bind_ok hm
    obtain ⟨r, hread, rfl⟩ := lift_ok hform
    have hlocal := (locality w.surroundings).form (k := 0) (w.surroundings.alike (Placement.Same.moved line hu))
      ({ s with scopes := s.scopes.forget } : Session).view (Placement.Same.moved line hu)
    obtain ⟨r', hform', h₁⟩ := h.forget.reads hlocal
      ((form_safe u _ s.reader).mono fun _ _ h => h.2) hread
    obtain ⟨c', t', hcomplete', hmatches⟩ := complete_mirrors f h₁ c s' hcomplete trivial
    have hplain : ({ t with scopes := t.scopes.forget } : Session).view.inFunction =
        ({ s with scopes := s.scopes.forget } : Session).view.inFunction ∨
        ∀ ps, f ≠ .block (.constructing ps) := by
      by_cases hmem : Tag.function ∈ w.outer
      · refine .inr ?_
        rintro ps rfl
        have hno := hadmits hmem
        rw [constructs, openBlock_header _ _ c s' hcomplete] at hno
        cases hno
      · exact .inl (hfunction hmem)
    refine ⟨c', t', ?_, hmatches⟩
    have hread' := lift_of_ok (s := { t with scopes := t.scopes.forget })
      (form_of_within hwithin hform' hplain)
    exact (bind_of_ok _ hread').trans hcomplete'

/-! ## Labels -/

/-- A label without a body ends its line, and the next one is read from the line after. The body
that is opened in the end finds the mark of a jump as it was at the start of the clause. -/
theorem labelEnd_mirrors {more more' : Token → Translate (List LabelLine)} (label : Label)
    (h : s.Midway w t) (hjumped : t.terminated = s.terminated)
    (hmore : ∀ u line (s' t' : Session), s'.Midway w t' → t'.terminated = s'.terminated →
      Mirrors (more u) s' (more' (w.moved u line)) t' (w.Carries (List.map (LabelLine.raise w.rise)))) :
    Mirrors (labelEnd more label) s (labelEnd more' label) t (w.Carries (List.map (LabelLine.raise w.rise))) := by
  refine h.parse (expect_local (by rfl)) (expect_spec (by rfl) s.reader) ?_
  intro _ r₁ r₁' h₁
  refine h₁.parse trailingComment_local (trailingComment_safe r₁) ?_
  intro comment r₂ r₂' h₂
  refine h₂.toFollows.readToken (readsToken_next _) (fun marker line r₃ r₃' hread₃ _ h₃ => ?_)
    fun marker line r₃ r₃' _ hmarker h₃ => ?_
  · refine .ite Iff.rfl (fun _ => ?_) fun _ => ?_
    · refine (openScope_mirrors h₃ fun _ => hjumped).bind ?_
      rintro _ _ s₄ t₄ ⟨-, h₄⟩
      exact .pure ⟨rfl, h₄⟩
    refine .ite Iff.rfl (fun hnewline => ?_) fun _ => .throw
    refine h₃.readToken (readsToken_next _) (fun u line r₄ r₄' hread hu h₄ => ?_)
      fun u line r₄ r₄' _ hu _ => ?_
    · refine .guard id fun hlabel => ?_
      have hplain := isMarker_of_label hlabel
      have hbalanced := h₂.balanced.imp_right fun hb =>
        hb.read hread₃ (balance_newline hnewline)
      refine (hmore u line _ _ (h₄.midway hread hplain hbalanced) hjumped).bind ?_
      rintro lines _ s₅ t₅ ⟨rfl, h₅⟩
      exact .pure ⟨rfl, h₅⟩
    · have hno : (!(u.is "case" || u.is "default")) := by
        rw [Placement.is_of_closes hu (by decide), Placement.is_of_closes hu (by decide)]
        rfl
      exact .guard (fun _ => hno) fun hyes => absurd hno hyes
  · -- Another label would have to come after the last newline.
    refine .never fun lines s' hm => ?_
    rw [Placement.is_of_closes hmarker (by decide), if_neg Bool.false_ne_true,
      if_pos (w.newline hmarker)] at hm
    obtain ⟨_, _, hnext, -⟩ := bind_ok hm
    obtain ⟨r, hnext, -⟩ := lift_ok hnext
    exact (readsToken_next _).nil h₃.rest hnext

/-- Labels are read in both places, by induction on the budget. -/
theorem labelsIn_mirrors (hmn : m ≤ n) (u : Token) (line : Int) (h : s.Midway w t)
    (hjumped : t.terminated = s.terminated) :
    Mirrors (labelsIn m u) s (labelsIn n (w.moved u line)) t (w.Carries (List.map (LabelLine.raise w.rise))) := by
  induction m generalizing n s t u line with
  | zero => exact .throw
  | succ m ih =>
    obtain ⟨n, rfl⟩ : ∃ k, n = k + 1 := ⟨n - 1, by omega⟩
    rw [labelsIn_succ, labelsIn_succ]
    -- A switch that is the innermost scope of the source is the innermost of all.
    have htop : s.scopes.top? = some .switchBlock → t.scopes.top? = some .switchBlock := by
      rw [Scopes.top?, Scopes.top?, h.tags]
      intro hhead
      rw [head?_append, hhead]
      rfl
    refine .get (.guard (fun hno hyes => hno (htop hyes)) fun _ => ?_)
    have hmore : ∀ u line (s' t' : Session), s'.Midway w t' → t'.terminated = s'.terminated →
        Mirrors (labelsIn m u) s' (labelsIn n (w.moved u line)) t' (w.Carries (List.map (LabelLine.raise w.rise))) :=
      fun u line s' t' h' hjumped' => ih (by omega) u line h' hjumped'
    refine .ite (c := u.is "case" = true) Iff.rfl (fun _ => ?_) fun _ => ?_
    · refine h.parse expressionList_local (expressionList_safe s.reader) ?_
      intro values r₁ r₁' h₁
      exact labelEnd_mirrors _ h₁ hjumped hmore
    · exact labelEnd_mirrors _ h hjumped hmore

theorem labels_mirrors (u : Token) (line : Int) (h : s.Midway w t) (hjumped : t.terminated = s.terminated) :
    Mirrors (labels u) s (labels (w.moved u line)) t w.Matches := by
  refine .modify (.get ?_)
  have hle : s.remaining ≤ t.remaining := h.reader.remaining_le
  refine (labelsIn_mirrors (Nat.succ_le_succ hle) u line h.forget hjumped).bind ?_
  rintro labels _ s₁ t₁ ⟨rfl, h₁⟩
  exact .pure (.inl ⟨rfl, h₁⟩)

/-! ## Clauses -/

/-- So are markers. -/
theorem marker_mirrors (m : Marker) {first first' : Bool} (hfirst : first → first')
    (u : Token) (line : Int) (h : s.Follows w t) : Mirrors (marker m first u) s (marker m first' (w.moved u line)) t
      w.Matches := by
  cases m with
  | begin =>
    cases first with
    | true =>
      rw [hfirst rfl]
      exact .pure (.inl ⟨rfl, h⟩)
    | false => exact .throw
  | newline => exact .pure (.inl ⟨rfl, h⟩)
  | dedent =>
    refine (closeBlock_mirrors u line h).bind ?_
    rintro closing _ s₁ t₁ ⟨rfl, h₁⟩
    exact .pure (.inl ⟨rfl, h₁⟩)
  | indent => exact .throw

/-- So is every clause that is admitted. -/
theorem clauseIn_mirrors (hmn : m ≤ n) (line : Int) (hu : w.closes u = false) (h : s.Follows w t)
    (hmidway : u.isMarker = false → s.Midway w t) :
    Mirrors (clauseIn m u) s (clauseIn n (w.moved u line)) t w.Matches w.Admits := by
  induction m generalizing n s t u line with
  | zero => exact .throw
  | succ m ih =>
    obtain ⟨n, rfl⟩ : ∃ k, n = k + 1 := ⟨n - 1, by omega⟩
    have hlex : (w.moved u line).lexeme = u.lexeme := rfl
    rw [clauseIn_succ, clauseIn_succ]
    -- A clause that may be the marker of the start is the first one in both runs.
    refine .bind (V := fun first first' s₁ t₁ => (first = true → first' = true) ∧
      s₁.Follows w t₁ ∧ (u.isMarker = false → s₁.Midway w t₁)) ?_ ?_
    · intro first s₁ hm _
      cases hm
      refine ⟨_, _, rfl, h.trace, h.record _ _, fun hplain => ?_⟩
      exact ⟨h.record _ _, (hmidway hplain).midline, (hmidway hplain).balanced⟩
    rintro first first' s₁ t₁ ⟨hfirst, h₁, hmidway⟩
    refine .guard id fun _ => ?_
    unfold clauseFrom
    rw [hlex]
    split
    · exact (marker_mirrors _ hfirst u line h₁).given
    · refine .ite Iff.rfl (fun hsign => ?_) fun _ => .throw
      exact (comment_mirrors line hu (hmidway (isMarker_of_isCommentSign hsign))).given
    · next hattribute =>
      have h₂ := ((hmidway (isMarker_of_lexeme hattribute)).forget).setTerminated false
      refine .modify (.modify (h₂.atText (by decide) (by decide) ?_))
      rintro (_ | _) v rest - -
      · refine h₂.toFollows.readToken (readsToken_next _) (fun v line' r r' hread hv h₃ => ?_)
          fun v line' r r' _ hv _ => ?_
        · refine .guard id fun _ => ?_
          refine .map (ih (by omega) line' hv h₃ fun hplain => h₃.midway hread hplain h₂.balanced) ?_
          rintro clause _ s₄ t₄ (⟨rfl, h₄⟩ | ⟨last, hlast, hclosed, h₄⟩)
          · exact .inl ⟨rfl, h₄⟩
          · exact .inr ⟨last, hlast, .attributed u.text hclosed, h₄⟩
        · -- No clause starts with the marker that ends the line of an attribute.
          have hno : (v.raw || v.category.isLineMarker) := by
            rw [category_isLineMarker, Placement.isMarker_of_closes hv, Bool.or_true]
          exact .guard (fun _ => hno) fun hyes => absurd hno hyes
      · exact (openBlock_mirrors _ h₂).given
    · next hword =>
      have h₂ := ((hmidway (isMarker_of_lexeme hword)).forget).setTerminated false
      exact .modify (.modify (passthrough_mirrors u line h₂).given)
    case h_5 hword | h_6 hword =>
      have h₂ := (hmidway (isMarker_of_lexeme hword)).setTerminated false
      exact .modify (labels_mirrors u line h₂ rfl).given
    · next hmarker _ _ _ _ _ =>
      have h₂ := (hmidway (isMarker_of_lexeme_ne hmarker)).setTerminated false
      exact .modify (continuation_mirrors line hu h₂)

/-- At the end the other clause closes the block as well. -/
theorem clauseIn_closes (line : Int) (hu : w.closes u) (h : s.AtEnd w t) (htags : s.scopes.tags = []) :
    Mirrors (clauseIn (m + 1) u) s (clauseIn (n + 1) (w.closer u line)) t w.Matches := by
  have hraw := (is_iff.mp (w.newline hu)).1
  have hraw' := (is_iff.mp (Placement.closer_is hu line)).1
  rw [clauseIn, clauseIn, lexeme_of_is_marker (w.newline hu),
    lexeme_of_is_marker (Placement.closer_is hu line)]
  refine .bind (V := fun _ _ s₁ t₁ => s₁.AtEnd w t₁ ∧ s₁.scopes.tags = []) ?_ ?_
  · intro first s₁ hm _
    cases hm
    exact ⟨_, _, rfl, ⟨h.reader, h.rest, h.tags, h.generics⟩, htags⟩
  rintro first first' s₁ t₁ ⟨h₁, htags₁⟩
  obtain ⟨t', hclose, hended⟩ := closeBlock_outer line hu h₁ htags₁
  rw [hraw, hraw']
  intro clause s' hm _
  cases hm
  refine ⟨.dedent (.block (u.level + w.rise - 1)), t', ?_, .inr ⟨u, hu, .newline, hended⟩⟩
  have hmarker : (closeBlock (w.closer u line) >>= fun closing => pure (Clause.dedent closing)) t₁ =
      .ok (.dedent (.block (u.level + w.rise - 1))) t' := by
    rw [bind_of_ok _ hclose]
    rfl
  exact hmarker

end Translate

/-! ## Chains of clauses -/

namespace Session

variable {w : Placement} {s s' t : Session}

/-- A step in one place is a step in the other. -/
theorem Follows.clause {c : Clause} (h : s.Follows w t) (hbalanced : w.GoesOn ∨ s.Balanced)
    (hrest : s.stream.rest = u :: rest) (hclause : Translate.clause u (s.start u rest) = .ok c s')
    (hadmits : w.Admits c) : ∃ u' rest' c' t', t.stream.rest = u' :: rest' ∧
      Translate.clause u' (t.start u' rest') = .ok c' t' ∧ w.Matches c c' s' t' := by
  obtain ⟨u', rest', hrest', hsame, hr⟩ := h.reader.advance hrest
  have hread : s.reader.stream.Reads [u] (s.start u rest).stream := Reader.reads_advance hrest
  have hle : (s.start u rest).remaining ≤ (t.start u' rest').remaining := hr.remaining_le
  have hmirrors : Mirrors (clauseIn ((s.start u rest).remaining + 1) u) (s.start u rest)
      (clauseIn ((t.start u' rest').remaining + 1) u') (t.start u' rest') w.Matches w.Admits := by
    cases hsame with
    | moved line hu =>
      have h₁ : (s.start u rest).Follows w (t.start (w.moved u line) rest') :=
        h.read hread (by simpa using hu) hr
      exact clauseIn_mirrors (Nat.succ_le_succ hle) line hu h₁ fun hplain =>
        h₁.midway hread hplain hbalanced
    | closer line hu =>
      have hsplit : s.stream.rest = [] ++ u :: rest := hrest
      have hend : rest = [] := h.nothing_after hsplit hu
      have hnone : s.scopes.tags = [] := tags_eq_nil hbalanced hread hu hend
      exact .given (clauseIn_closes line hu ⟨hr, hend, h.tags, h.generics⟩ hnone)
  obtain ⟨c', t', hclause', hmatches⟩ := hmirrors c s' hclause hadmits
  exact ⟨u', rest', c', t', hrest', hclause', hmatches⟩

theorem Nested.balanced (h : s.Nested 0)
    (htotal : balance (s.stream.seen.reverse ++ s.stream.rest) = 0) : s.Balanced := by
  have hdepth : (s.scopes.tags.length : Int) = balance s.stream.seen + 0 := h.depth
  rw [balance_append, balance_reverse] at htotal
  rw [Balanced, hdepth]
  omega

/-- A chain of clauses is the same elsewhere, up to the level. If the newline at its end gives way
to a dedent, then the last clause closes a scope around the source. -/
theorem Translates.mirrored (h : s.Translates cs s') (hfollows : s.Follows w t) (hnested : w.GoesOn ∨
      s.Nested 0 ∧ balance (s.stream.seen.reverse ++ s.stream.rest) = 0) (hadmits : ∀ c ∈ cs, w.Admits c) :
    (∃ t', t.Translates (cs.map (raise w.rise)) t' ∧ s'.Follows w t') ∨
    ∃ ds c c' u t', cs = ds ++ [c] ∧ w.closes u ∧ Closed u.level (u.level + w.rise - 1) c c' ∧
      t.Translates (ds.map (raise w.rise) ++ [c']) t' ∧ s'.Ended w t' := by
  induction h generalizing t with
  | refl s => exact .inl ⟨t, .refl t, hfollows⟩
  | @step s s₁ s' u rest c cs hrest hclause hcs ih =>
    have hbalanced := hnested.imp_right fun hn => hn.1.balanced hn.2
    obtain ⟨u', rest', c', t₁, hrest', hclause', hmatches⟩ :=
      hfollows.clause hbalanced hrest hclause (hadmits c mem_cons_self)
    rcases hmatches with ⟨rfl, h₁⟩ | ⟨last, hlast, hclosed, hended⟩
    · have hnested₁ : w.GoesOn ∨
          s₁.Nested 0 ∧ balance (s₁.stream.seen.reverse ++ s₁.stream.rest) = 0 := by
        refine hnested.imp_right ?_
        rintro ⟨hn, htotal⟩
        obtain ⟨hn₁, ts, hread⟩ := hn.clause hrest hclause
        refine ⟨hn₁, ?_⟩
        rw [hread.1, ← reverse_reverse (u :: ts), ← append_assoc, ← reverse_append,
          ← hread.2] at htotal
        exact htotal
      rcases ih h₁ hnested₁ fun d hd => hadmits d (mem_cons_of_mem _ hd) with
        ⟨t', ht', h'⟩ | ⟨ds, d, d', v, t', rfl, hv, hclosed, ht', hended⟩
      · exact .inl ⟨t', .step hrest' hclause' ht', h'⟩
      · exact .inr ⟨c :: ds, d, d', v, t', rfl, hv, hclosed, .step hrest' hclause' ht', hended⟩
    · -- Nothing is left, so this was the last clause.
      cases hcs with
      | refl =>
        exact .inr ⟨[], c, c', last, t₁, rfl, hlast, hclosed, .step hrest' hclause' (.refl t₁), hended⟩
      | step hrest₁ =>
        rw [hended.rest] at hrest₁
        cases hrest₁

/-- With more tokens behind it a run is the same. -/
theorem Translates.mirrored_elsewhere (h : s.Translates cs s')
    (hfollows : s.Follows (.elsewhere after helpers begun) t) :
    ∃ t', t.Translates cs t' ∧ s'.Follows (.elsewhere after helpers begun) t' := by
  rcases h.mirrored hfollows (.inl fun _ => rfl) fun _ _ hmem => nomatch hmem with
    ⟨t', ht', h'⟩ | ⟨_, _, _, u, _, _, hu, _⟩
  · have hraise : cs.map (raise 0) = cs := map_id'' raise_zero cs
    refine ⟨t', ?_, h'⟩
    rw [← hraise]
    exact ht'
  · cases hu

end Session

end Offside
