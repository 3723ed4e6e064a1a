/-
Which words a parser has read.

`Stream.Spells` says that a stream has moved over tokens with the given texts. None of them may be
raw, and a reader is `Clear` if no raw token comes next but behind a comment sign or a marker.
-/
import Mathlib.Data.List.Chain
import Offside.Proofs.Parse.Basic
import Offside.Proofs.Spelling.Helper

set_option autoImplicit false

namespace Offside

open List Text Token

/-! ## Tokens of code -/

variable {w text : Text} {t : Token} {ws ws' : List Text}

namespace Token

/-- A token of the code of a line: no marker, and no part of a comment. -/
structure IsCode (t : Token) : Prop where
  raw : t.raw = false
  marker : t.isMarker = false
  sign : t.isCommentSign = false

def CodeText (text : Text) : Prop :=
  ((Marker.all.any fun m => text == m.text) || text == "#" || text == "#.") = false

def QuietText (text : Text) : Prop :=
  ((Marker.all.any fun m => text == m.text) || text == "#" || text == "#." || text == "in" || text == ".." ||
    text == ".") = false

theorem QuietText.code (h : QuietText text) : CodeText text := by
  simp only [QuietText, Bool.or_eq_false_iff] at h
  rw [CodeText, h.1.1.1.1.1, h.1.1.1.1.2, h.1.1.1.2]
  rfl

theorem QuietText.quiet (h : QuietText text) : Quiet text := by
  simp only [QuietText, Bool.or_eq_false_iff, beq_eq_false_iff_ne] at h
  exact quiet_iff.mpr ⟨h.1.1.2, h.1.2, h.2⟩

/-- A token with a text of code is code. -/
theorem isCode_of_is (h : t.is text) (hcode : CodeText text) : t.IsCode := by
  obtain ⟨hraw, htext⟩ := is_iff.mp h
  rw [CodeText, Bool.or_eq_false_iff, Bool.or_eq_false_iff] at hcode
  refine ⟨hraw, by rw [isMarker_of_is h]; exact hcode.1.1, ?_⟩
  rw [isCommentSign, Token.is, Token.is, htext, hcode.2, hcode.1.2]
  cases t.raw <;> rfl

theorem lexeme_eq (h : t.raw = false) : t.lexeme = .ofText t.text := by
  rw [lexeme, h]
  rfl

theorem category_eq (h : t.raw = false) : t.category = .ofText t.text := by
  rw [category, lexeme_eq h]
  rfl

theorem lexeme_of_isCommentSign (h : t.isCommentSign) : t.lexeme = .shape .punctuation := by
  rw [isCommentSign, Bool.or_eq_true] at h
  rcases h with h | h <;> obtain ⟨hraw, htext⟩ := is_iff.mp h <;> rw [lexeme_eq hraw, htext] <;>
    exact Lexeme.ofText_sign (by decide)

/-- So is one with a category of code. -/
theorem isCode_of_category (hraw : t.raw = false) (hmarker : t.category.isLineMarker = false)
    (hsign : t.category ≠ .punctuation) : t.IsCode := by
  refine ⟨hraw, by rw [← category_isLineMarker]; exact hmarker, ?_⟩
  rw [Bool.eq_false_iff]
  intro h
  refine hsign ?_
  rw [category, lexeme_of_isCommentSign h]
  rfl

theorem isCode_of_lexeme {l : Lexeme} (hraw : t.raw = false) (h : t.lexeme = l)
    (hmarker : l.category.isLineMarker = false) (hsign : l.category ≠ .punctuation) : t.IsCode := by
  refine isCode_of_category hraw ?_ ?_ <;> rw [category, h]
  · exact hmarker
  · exact hsign

theorem isCode_of_isWord (h : t.isWord) : t.IsCode := by
  refine ⟨?_, isMarker_of_isWord h, ?_⟩
  · rw [isWord, Bool.and_eq_true] at h
    exact (Bool.not_eq_eq_eq_not ..).mp h.1
  · rw [Bool.eq_false_iff]
    intro hsign
    rw [isCommentSign, Bool.or_eq_true] at hsign
    rw [isWord, Bool.and_eq_true] at h
    rcases hsign with hs | hs <;> rw [(is_iff.mp hs).2] at h <;> exact absurd h.2 (by decide)

end Token

/-! ## Words read and the word ahead -/

variable {r' : Reader} {c : Category} {ts rest : List Token}

namespace Stream

/-- `s'` is `s` after tokens with these texts were read, each with the property `P`. -/
def Spells (P : Token → Prop) (s : Stream) (words : List Text) (s' : Stream) : Prop :=
  ∃ ts, s.Reads ts s' ∧ ts.map Token.text = words ∧ ∀ t ∈ ts, P t

variable {P : Token → Prop} {s s₁ s₂ s' : Stream}

theorem Spells.refl (s : Stream) : s.Spells P [] s := ⟨[], Reads.refl s, rfl, fun _ h => nomatch h⟩

/-- Words are read one part after the other. -/
theorem Spells.trans (h : s.Spells P ws s₁) (h' : s₁.Spells P ws' s₂) : s.Spells P (ws ++ ws') s₂ := by
  obtain ⟨ts, hts, rfl, hP⟩ := h
  obtain ⟨us, hus, rfl, hP'⟩ := h'
  refine ⟨ts ++ us, hts.trans hus, map_append, ?_⟩
  intro t ht
  rcases mem_append.mp ht with ht | ht
  · exact hP t ht
  · exact hP' t ht

theorem Spells.one (h : s.Reads [t] s') (ht : P t) : s.Spells P [t.text] s' := by
  refine ⟨[t], h, rfl, ?_⟩
  intro u hu
  rw [mem_singleton.mp hu]
  exact ht

theorem Spells.rest_nil (h : s.Spells P [] s') : s'.rest = s.rest := by
  obtain ⟨ts, hts, htext, -⟩ := h
  rw [map_eq_nil_iff] at htext
  rw [hts.1, htext, nil_append]

def nextWord? (s : Stream) : Option Text :=
  s.rest.head?.bind fun t => if t.raw then none else some t.text

def Ends (s : Stream) (goesOn : Text → Bool) : Prop := ∀ w ∈ s.nextWord?, goesOn w = false

theorem nextWord?_cons (h : s.rest = t :: rest) (ht : t.raw = false) : s.nextWord? = some t.text := by
  rw [nextWord?, h, head?_cons, Option.bind_some, ht]
  rfl

/-- The next word is the text of the next token, if it is not raw. -/
theorem nextWord?_eq_some_iff : s.nextWord? = some w ↔ ∃ t rest, s.rest = t :: rest ∧ t.is w := by
  constructor
  · intro h
    cases hrest : s.rest with
    | nil => rw [nextWord?, hrest] at h; cases h
    | cons t rest =>
      cases hraw : t.raw with
      | true => rw [nextWord?, hrest, head?_cons, Option.bind_some, hraw] at h; cases h
      | false =>
        rw [nextWord?_cons hrest hraw, Option.some.injEq] at h
        exact ⟨t, rest, rfl, is_iff.mpr ⟨hraw, h⟩⟩
  · rintro ⟨t, rest, hrest, ht⟩
    obtain ⟨hraw, rfl⟩ := is_iff.mp ht
    exact nextWord?_cons hrest hraw

theorem Spells.nextWord? (h : s.Spells P (w :: ws) s') (hP : ∀ t, P t → t.raw = false) : s.nextWord? = some w := by
  obtain ⟨ts, hts, htext, hall⟩ := h
  cases ts with
  | nil => cases htext
  | cons t ts =>
    obtain ⟨rfl, -⟩ := cons.inj htext
    have hrest : s.rest = t :: (ts ++ s'.rest) := hts.1
    exact nextWord?_cons hrest (hP t (hall t mem_cons_self))

end Stream

/-! ## Readers with no raw token ahead of the comment -/

def Token.MayPrecede (t u : Token) : Prop :=
  u.raw → t.isCommentSign ∨ t.isMarker

namespace Reader

structure Clear (r : Reader) : Prop where
  next : ∀ t ∈ r.stream.rest.head?, t.raw = false
  chain : r.stream.rest.IsChain MayPrecede

def Chained (r : Reader) : Prop := r.stream.rest.IsChain MayPrecede

/-- The reader has just read the token `t` and was clear before. -/
structure Behind (r : Reader) (t : Token) : Prop where
  raw : t.raw = false
  chain : (t :: r.stream.rest).IsChain MayPrecede

/-- `r'` is `r` after these tokens were read, and nothing else was done. -/
structure Reads (r : Reader) (ts : List Token) (r' : Reader) : Prop where
  stream : r.stream.Reads ts r'.stream
  helpers : r'.helpers = r.helpers

/-- `r'` is `r` after code with these words was read, and nothing else was done. -/
structure Takes (r : Reader) (words : List Text) (r' : Reader) : Prop where
  code : r.stream.Spells IsCode words r'.stream
  helpers : r'.helpers = r.helpers

/-- `r'` is `r` after code with these words was read, of which none is missing behind a dot, and the
helpers that they ask for were recorded. -/
structure Spells (r : Reader) (words : List Text) (r' : Reader) : Prop where
  code : r.stream.Spells IsCode words r'.stream
  whole : words.getLast? ≠ some ("." : Text)
  helpers : r.helpers.Records (fun x => x.Within words) r'.helpers

def Ends (r : Reader) (goesOn : Text → Bool) : Prop := r.stream.Ends goesOn

variable {r r₁ r₂ r' : Reader} {t : Token} {rest : List Token}

/-- Reading a token leaves the reader behind it. -/
theorem Clear.behind (h : r.Clear) (hread : r.Reads [t] r') : r'.Behind t := by
  obtain ⟨hnext, hchain⟩ := h
  have hrest : r.stream.rest = t :: r'.stream.rest := hread.stream.1
  rw [hrest] at hnext hchain
  exact ⟨hnext t rfl, hchain⟩

/-- Behind a word of code nothing raw comes. -/
theorem Behind.clear (h : r.Behind t) (ht : t.IsCode) : r.Clear := by
  obtain ⟨-, hchain⟩ := h
  cases hrest : r.stream.rest with
  | nil =>
    refine ⟨fun u hu => ?_, by rw [hrest]; exact .nil⟩
    rw [hrest] at hu
    cases hu
  | cons u us =>
    rw [hrest] at hchain
    cases hchain with
    | cons_cons hu hus =>
      refine ⟨fun v hv => ?_, by rw [hrest]; exact hus⟩
      rw [hrest, head?_cons, Option.mem_some_iff] at hv
      subst hv
      rw [Bool.eq_false_iff]
      intro hraw
      rcases hu hraw with hs | hm
      · rw [ht.sign] at hs; cases hs
      · rw [ht.marker] at hm; cases hm

theorem Chained.reads (h : r.Chained) (hread : r.stream.Reads ts r'.stream) : r'.Chained := by
  rw [Chained, hread.1] at h
  exact h.right_of_append

theorem clear_of_no_raw (h : ∀ t ∈ r.stream.rest, t.raw = false) : r.Clear := by
  refine ⟨fun t ht => h t (mem_of_mem_head? ht), ?_⟩
  refine isChain_iff_getElem.mpr fun i hi hraw => ?_
  rw [h _ (getElem_mem ..)] at hraw
  cases hraw

theorem Reads.refl (r : Reader) : r.Reads [] r := ⟨.refl _, rfl⟩

theorem Reads.trans {us : List Token} (h : r.Reads ts r₁) (h' : r₁.Reads us r₂) : r.Reads (ts ++ us) r₂ :=
  ⟨h.stream.trans h'.stream, h'.helpers.trans h.helpers⟩

theorem Reads.one (h : r.stream.rest = t :: rest) : r.Reads [t] (r.advance t rest) := ⟨reads_advance h, rfl⟩

theorem Takes.trans (h : r.Takes ws r₁) (h' : r₁.Takes ws' r₂) : r.Takes (ws ++ ws') r₂ :=
  ⟨h.code.trans h'.code, h'.helpers.trans h.helpers⟩

theorem Takes.one (h : r.Reads [t] r') (ht : t.IsCode) : r.Takes [t.text] r' :=
  ⟨Stream.Spells.one h.stream ht, h.helpers⟩

theorem Spells.refl (r : Reader) : r.Spells [] r :=
  ⟨Stream.Spells.refl r.stream, nofun, .of_none (fun _ => Helper.not_within_nil) rfl⟩

theorem Spells.trans (h : r.Spells ws r₁) (h' : r₁.Spells ws' r₂) : r.Spells (ws ++ ws') r₂ where
  code := h.code.trans h'.code
  whole := getLast?_append_ne h.whole h'.whole
  helpers := (h.helpers.trans h'.helpers).congr fun _ => (Helper.within_append h.whole).symm

/-- A quiet word asks for no helper. -/
theorem Takes.spells (h : r.Takes [w] r') (hw : Quiet w) : r.Spells [w] r' where
  code := h.code
  whole := by simpa using (quiet_iff.mp hw).2.2
  helpers := .of_none (fun _ => Helper.not_within_quiet hw) h.helpers

theorem Takes.spells_member (h : r.Takes [".", w] r') (hw : w.isWord) : r.Spells [".", w] r' where
  code := h.code
  whole := by
    have hne : w ≠ "." := by rintro rfl; cases hw
    simpa using hne
  helpers := .of_none (fun _ => Helper.not_within_member hw) h.helpers

theorem Spells.one (h : r.Reads [t] r') (ht : t.IsCode) (hquiet : Quiet t.text) : r.Spells [t.text] r' :=
  (Takes.one h ht).spells hquiet

theorem Spells.nextWord? (h : r.Spells (w :: ws) r') :
    r.stream.nextWord? = some w := Stream.Spells.nextWord? h.code fun _ ht => ht.raw

theorem Spells.nextWord?_nil (h : r.Spells [] r') : r'.stream.nextWord? = r.stream.nextWord? := by
  rw [Stream.nextWord?, Stream.nextWord?, Stream.Spells.rest_nil h.code]

theorem Ends.mono {f g : Text → Bool} (h : r.Ends f) (hfg : ∀ w, g w → f w) : r.Ends g := by
  intro w hw
  rw [Bool.eq_false_iff]
  intro hg
  have hf := hfg w hg
  rw [h w hw] at hf
  cases hf

end Reader

namespace Parse

open Reader (Clear Behind)

variable {α : Type} {r : Reader} {Q : α → Reader → Prop}

/-! ## Single tokens -/

theorem pop_reads (h : r.stream.rest = t :: rest) : Ensures pop r fun a r' => a = t ∧ r.Reads [t] r' := by
  intro a r' hm
  rw [pop_eq h] at hm
  cases hm
  exact ⟨rfl, .one h⟩

theorem next_reads (wanted : Text) (r : Reader) : Ensures (next wanted) r fun t r' => r.Reads [t] r' := by
  intro t r' hm
  cases hrest : r.stream.rest with
  | nil => rw [next_eq_nil wanted hrest] at hm; cases hm
  | cons u rest =>
    rw [next_eq wanted hrest] at hm
    cases hm
    exact .one hrest

theorem next_ensures (wanted : Text) (hr : r.Clear) :
    Ensures (next wanted) r fun t r' => r.Reads [t] r' ∧ r'.Behind t := by
  intro t r' hm
  have hread := next_reads wanted r t r' hm
  exact ⟨hread, hr.behind hread⟩

theorem peek?_ensures (r : Reader) : Ensures peek? r fun o r' => o = r.stream.rest.head? ∧ r' = r := by
  intro o r' hm
  rw [peek?_eq] at hm
  cases hm
  exact ⟨rfl, rfl⟩

theorem atText_word (text : Text) (r : Reader) : atText text r = .ok (decide (r.stream.nextWord? = some text)) r := by
  rw [atText_eq]
  congr 1
  rw [Bool.eq_iff_iff, decide_eq_true_iff, Stream.nextWord?_eq_some_iff]
  cases hrest : r.stream.rest with
  | nil => exact ⟨fun h => (nomatch h), fun ⟨_, _, h, _⟩ => (nomatch h)⟩
  | cons t rest =>
    constructor
    · intro h
      exact ⟨t, rest, rfl, h⟩
    · rintro ⟨_, _, h, ht⟩
      cases h
      exact ht

theorem atText_answers (text : Text) (r : Reader) : Ensures (atText text) r fun b r' =>
      r' = r ∧ (b → r.stream.nextWord? = some text) := by
  intro b r' hm
  rw [atText_word] at hm
  cases hm
  exact ⟨rfl, of_decide_eq_true⟩

theorem accept_answers (hcode : CodeText text) (hr : r.Clear) : Ensures (accept text) r fun b r' =>
      if b then r.Takes [text] r' ∧ r'.Clear else r' = r ∧ r.stream.nextWord? ≠ some text := by
  intro b r' hm
  rw [accept, bind_of_ok _ (atText_word text r)] at hm
  by_cases hnext : r.stream.nextWord? = some text
  · obtain ⟨t, rest, hrest, ht⟩ := Stream.nextWord?_eq_some_iff.mp hnext
    rw [decide_eq_true hnext, if_pos rfl, discard_bind, bind_of_ok _ (pop_eq hrest)] at hm
    cases hm
    have hone := Reader.Takes.one (.one hrest) (isCode_of_is ht hcode)
    rw [(is_iff.mp ht).2] at hone
    exact ⟨hone, (hr.behind (.one hrest)).clear (isCode_of_is ht hcode)⟩
  · rw [decide_eq_false hnext, if_neg Bool.false_ne_true] at hm
    cases hm
    exact ⟨rfl, hnext⟩

variable {p q : Parse α}

theorem accept_takes (hcode : CodeText text) (hr : r.Clear)
    (hp : ∀ r', r'.Clear → r.Takes [text] r' → Ensures p r' Q)
    (hq : r.stream.nextWord? ≠ some text → Ensures q r Q) : Ensures (do if ← accept text then p else q) r Q := by
  refine .seq (accept_answers hcode hr) ?_
  rintro (_ | _) r' h
  · obtain ⟨rfl, hnext⟩ := h
    exact hq hnext
  · exact hp r' h.2 h.1

/-- A word is read if it is next, and nothing is read if not. -/
theorem accept_ensures (hquiet : QuietText text) (hr : r.Clear)
    (hp : ∀ r', r'.Clear → r.Spells [text] r' → Ensures p r' Q)
    (hq : r.stream.nextWord? ≠ some text → Ensures q r Q) : Ensures (do if ← accept text then p else q) r Q :=
  accept_takes hquiet.code hr (fun r' hr' h => hp r' hr' (h.spells hquiet.quiet)) hq

theorem atText_ensures (hp : r.stream.nextWord? = some text → Ensures p r Q)
    (hq : r.stream.nextWord? ≠ some text → Ensures q r Q) : Ensures (do if ← atText text then p else q) r Q := by
  intro a r' hm
  rw [bind_of_ok _ (atText_word text r)] at hm
  by_cases hnext : r.stream.nextWord? = some text
  · rw [decide_eq_true hnext, if_pos rfl] at hm
    exact hp hnext a r' hm
  · rw [decide_eq_false hnext, if_neg Bool.false_ne_true] at hm
    exact hq hnext a r' hm

theorem pop_ensures (hquiet : QuietText text) (hr : r.Clear) (hnext : r.stream.nextWord? = some text) :
    Ensures pop r fun t r' => t.text = text ∧ r.Spells [text] r' ∧ r'.Clear := by
  obtain ⟨t, rest, hrest, ht⟩ := Stream.nextWord?_eq_some_iff.mp hnext
  obtain ⟨-, rfl⟩ := is_iff.mp ht
  have hcode := isCode_of_is ht hquiet.code
  refine (pop_reads hrest).mono ?_
  rintro u r' ⟨rfl, hread⟩
  exact ⟨rfl, .one hread hcode hquiet.quiet, (hr.behind hread).clear hcode⟩

theorem expect_takes (hcode : CodeText text) (hr : r.Clear) :
    Ensures (expect text) r fun _ r' => r.Takes [text] r' ∧ r'.Clear := by
  refine .seq (next_ensures text hr) ?_
  rintro t r' ⟨hread, hbehind⟩
  refine .ite (fun _ => .throw) fun ht => ?_
  rw [Bool.not_eq_true, Bool.not_eq_false'] at ht
  have hone := Reader.Takes.one hread (isCode_of_is ht hcode)
  rw [(is_iff.mp ht).2] at hone
  exact .pure ⟨hone, hbehind.clear (isCode_of_is ht hcode)⟩

/-- A word that is expected is read. -/
theorem expect_ensures (hquiet : QuietText text) (hr : r.Clear) :
    Ensures (expect text) r fun _ r' => r.Spells [text] r' ∧ r'.Clear :=
  (expect_takes hquiet.code hr).mono fun _ _ h => ⟨h.1.spells hquiet.quiet, h.2⟩

theorem nextOf_reads (c : Category) (wanted : Text) (hr : r.Clear) :
    Ensures (nextOf c wanted) r fun t r' => r.Reads [t] r' ∧ r'.Behind t ∧ t.category = c := by
  refine .seq (next_ensures wanted hr) ?_
  rintro t r' ⟨hread, hbehind⟩
  refine .guard fun ht => ?_
  exact .pure ⟨hread, hbehind, Classical.not_not.mp ht⟩

theorem spells_of_is (hquiet : QuietText text) (hread : r.Reads [t] r') (hbehind : r'.Behind t)
    (ht : t.is text) : r.Spells [text] r' ∧ r'.Clear := by
  have hcode := isCode_of_is ht hquiet.code
  obtain ⟨-, rfl⟩ := is_iff.mp ht
  exact ⟨.one hread hcode hquiet.quiet, hbehind.clear hcode⟩

/-- A token of a quiet category is read as a word of it. -/
theorem spells_of_category (hmarker : c.isLineMarker = false) (hquiet : c ≠ .punctuation ∧ c ≠ .comparator)
    (hread : r.Reads [t] r') (hbehind : r'.Behind t) (ht : t.category = c) :
    r.Spells [t.text] r' ∧ Category.ofText t.text = c ∧ r'.Clear := by
  have hcode : t.IsCode := by
    refine isCode_of_category hbehind.raw ?_ ?_ <;> rw [ht]
    · exact hmarker
    · exact hquiet.1
  rw [category_eq hbehind.raw] at ht
  exact ⟨.one hread hcode (quiet_of_category ht hquiet), ht, hbehind.clear hcode⟩

theorem nextOf_ensures (hmarker : c.isLineMarker = false) (hquiet : c ≠ .punctuation ∧ c ≠ .comparator)
    (wanted : Text) (hr : r.Clear) : Ensures (nextOf c wanted) r fun t r' =>
      r.Spells [t.text] r' ∧ Category.ofText t.text = c ∧ r'.Clear := by
  refine (nextOf_reads c wanted hr).mono ?_
  rintro t r' ⟨hread, hbehind, ht⟩
  exact spells_of_category hmarker hquiet hread hbehind ht

/-- Whenever `p` starts at code and gives a result, it has read the words `w` of the result, of
which `P` holds. -/
def Yields (p : Parse α) (w : α → List Text) (P : α → Prop) : Prop :=
  ∀ r : Reader, r.Clear → Ensures p r fun a r' => r.Spells (w a) r' ∧ P a ∧ r'.Clear

theorem nextOf_yields (hmarker : c.isLineMarker = false) (hquiet : c ≠ .punctuation ∧ c ≠ .comparator) (wanted : Text) :
    Yields (do return (← nextOf c wanted).text) (fun name => [name]) fun name => Category.ofText name = c := by
  intro r hr
  refine .seq (nextOf_ensures hmarker hquiet wanted hr) ?_
  rintro t r₁ ⟨h₁, hcategory, hr₁⟩
  exact .pure ⟨h₁, hcategory, hr₁⟩

/-! ## Repetition -/

variable {w : α → List Text} {P : α → Prop}

theorem bounded_ensures {p : Nat → Parse α} (h : ∀ n, Ensures (p n) r Q) :
    Ensures (bounded p) r Q := fun a r' hm => h (8 * (r.stream.remaining + 1)) a r' hm

theorem Yields.bounded {p : Nat → Parse α} (h : ∀ n, Yields (p n) w P) : Yields (bounded p) w P :=
  fun r hr => bounded_ensures fun n => h n r hr

variable {item : Parse α}

/-- Items are read with a comma between each two. -/
theorem commaList_ensures {S : Reader → List Text → Reader → Prop}
    (htrans : ∀ {r r₁ r₂ : Reader} {ws us : List Text}, S r ws r₁ → S r₁ us r₂ → S r (ws ++ us) r₂)
    (hcomma : ∀ {r r' : Reader}, r.Takes [","] r' → S r [","] r')
    (hitem : ∀ r : Reader, r.Clear → Ensures item r fun a r' => S r (w a) r' ∧ P a ∧ r'.Clear) (n : Nat)
    (hr : r.Clear) : Ensures (commaList item n) r fun as r' =>
      S r (commaWords (as.map w)) r' ∧ (as ≠ [] ∧ ∀ a ∈ as, P a) ∧ r'.Clear := by
  induction n generalizing r with
  | zero => exact .throw
  | succ n ih =>
    rw [commaList]
    refine .seq (hitem r hr) ?_
    rintro a r₁ ⟨h₁, ha, hr₁⟩
    refine accept_takes (by rfl) hr₁ (fun r₂ hr₂ h₂ => ?_) fun _ => ?_
    · refine .seq (ih hr₂) ?_
      rintro as r₃ ⟨h₃, ⟨hne, has⟩, hr₃⟩
      refine .pure ⟨?_, ⟨cons_ne_nil _ _, forall_mem_cons.mpr ⟨ha, has⟩⟩, hr₃⟩
      rw [map_cons, commaWords_cons _ fun h => hne (map_eq_nil_iff.mp h)]
      exact htrans h₁ (htrans (hcomma h₂) h₃)
    · exact .pure ⟨h₁, ⟨cons_ne_nil _ _, forall_mem_singleton.mpr ha⟩, hr₁⟩

theorem commaList_yields (hitem : Yields item w P) (n : Nat) :
    Yields (commaList item n) (fun as => commaWords (as.map w)) fun as => as ≠ [] ∧ ∀ a ∈ as, P a :=
  fun _ hr => commaList_ensures Reader.Spells.trans (fun h => h.spells (by decide)) hitem n hr

theorem listTo_yields {close : Text} (hquiet : QuietText close) (hitem : Yields item w P) (n : Nat) :
    Yields (listTo close item n) (fun as => commaWords (as.map w) ++ [close])
      fun as => as ≠ [] ∧ ∀ a ∈ as, P a := by
  intro r hr
  induction n generalizing r with
  | zero => exact .throw
  | succ n ih =>
    rw [listTo]
    refine .seq (hitem r hr) ?_
    rintro a r₁ ⟨h₁, ha, hr₁⟩
    refine .seq (next_ensures close hr₁) ?_
    rintro separator r₂ ⟨hread, hbehind⟩
    refine .ite (fun hclose => ?_) fun _ => .ite (fun hcomma => ?_) fun _ => .throw
    · obtain ⟨h₂, hr₂⟩ := spells_of_is hquiet hread hbehind hclose
      exact .pure ⟨h₁.trans h₂, ⟨cons_ne_nil _ _, forall_mem_singleton.mpr ha⟩, hr₂⟩
    · obtain ⟨h₂, hr₂⟩ := spells_of_is (by rfl) hread hbehind hcomma
      refine .seq (ih r₂ hr₂) ?_
      rintro as r₃ ⟨h₃, ⟨hne, has⟩, hr₃⟩
      refine .pure ⟨?_, ⟨cons_ne_nil _ _, forall_mem_cons.mpr ⟨ha, has⟩⟩, hr₃⟩
      dsimp only
      rw [map_cons, commaWords_cons _ fun h => hne (map_eq_nil_iff.mp h), append_assoc]
      exact h₁.trans (h₂.trans h₃)

/-- What is repeated is read round by round. -/
theorem many_ensures {item? : Parse (Option α)} {V : α → Reader → Reader → Prop} {W : List α → Reader → Reader → Prop}
    (hitem : ∀ r : Reader, r.Clear → Ensures item? r fun o r' =>
      match o with
      | none => W [] r r'
      | some a => V a r r' ∧ r'.Clear)
    (hcons : ∀ a as r r₁ r₂, V a r r₁ → W as r₁ r₂ → W (a :: as) r r₂) (n : Nat) (hr : r.Clear) :
    Ensures (many item? n) r fun as r' => W as r r' := by
  induction n generalizing r with
  | zero => exact .throw
  | succ n ih =>
    rw [many]
    refine .seq (hitem r hr) ?_
    rintro (_ | a) r₁ h₁
    · exact .pure h₁
    · refine .seq (ih h₁.2) ?_
      intro as r₂ h₂
      exact .pure (hcons a as r r₁ r₂ h₁.1 h₂)

end Parse

end Offside
