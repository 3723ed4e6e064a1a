/-
Other texts for raw tokens.

A rewording gives raw tokens other texts, each by its position, and leaves every other token alone.
An empty text stays empty and no other becomes so, which is all that anything but a copy depends on.
-/
import Offside.Proofs.Parse.Basic
import Offside.Syntax.Clause

set_option autoImplicit false

open List

namespace Offside

/-! ## Texts of comments -/

/-- Is a raw token that comes next, or next behind markers, the text of a comment? It is if the last
word before it is the sign of a comment. -/
def Token.commentBehind (t : Token) (before : Bool) : Bool :=
  if t.raw || t.isMarker then before else t.isCommentSign

variable {t : Token}

theorem Token.commentBehind_of_raw (ht : t.raw) (before : Bool) : t.commentBehind before = before := by
  rw [commentBehind, ht, Bool.true_or, if_pos rfl]

theorem Token.commentBehind_of_isMarker (ht : t.isMarker) (before : Bool) :
    t.commentBehind before = before := by
  rw [commentBehind, ht, Bool.or_true, if_pos rfl]

theorem Token.commentBehind_of_word (hraw : t.raw = false) (ht : t.isMarker = false) (before : Bool) :
    t.commentBehind before = t.isCommentSign := by
  rw [commentBehind, hraw, ht, Bool.or_false, if_neg Bool.false_ne_true]

/-! ## Rewordings -/

/-- Other texts for raw tokens, by the position of the token. -/
structure Rewording where
  text : Nat → Text → Text
  isEmpty_text : ∀ k old, (text k old).isEmpty = old.isEmpty

namespace Rewording

def none : Rewording := ⟨fun _ old => old, fun _ _ => rfl⟩

variable (g : Rewording)

/-! ## Tokens -/

def token (k : Nat) (t : Token) : Token := if t.raw then { t with text := g.text k t.text } else t

variable {k : Nat} {t : Token}

theorem token_plain (k : Nat) (ht : t.raw = false) : g.token k t = t := by
  rw [token, ht, if_neg Bool.false_ne_true]

theorem token_raw (k : Nat) (ht : t.raw) : g.token k t = { t with text := g.text k t.text } := by
  rw [token, if_pos ht]

@[simp] theorem raw_token (k : Nat) (t : Token) : (g.token k t).raw = t.raw := by
  rw [token]
  split <;> rfl

/-- No test for a text tells that a token was reworded. -/
@[simp] theorem is_token (k : Nat) (t : Token) (text : Text) : (g.token k t).is text = t.is text := by
  cases ht : t.raw with
  | false => rw [g.token_plain k ht]
  | true => simp [Token.is, ht]

@[simp] theorem category_token (k : Nat) (t : Token) : (g.token k t).category = t.category := by
  cases ht : t.raw with
  | false => rw [g.token_plain k ht]
  | true => simp [Token.category, Token.lexeme, ht]

@[simp] theorem isMarker_token (k : Nat) (t : Token) : (g.token k t).isMarker = t.isMarker := by
  simp [Token.isMarker]

@[simp] theorem isCommentSign_token (k : Nat) (t : Token) : (g.token k t).isCommentSign = t.isCommentSign := by
  simp [Token.isCommentSign]

@[simp] theorem isEmpty_token (k : Nat) (t : Token) : (g.token k t).text.isEmpty = t.text.isEmpty := by
  cases ht : t.raw with
  | false => rw [g.token_plain k ht]
  | true => rw [g.token_raw k ht]; exact g.isEmpty_text k t.text

/-! ## Readers -/

def rest : Nat → List Token → List Token
  | _, [] => []
  | k, t :: ts => g.token k t :: rest (k + 1) ts

def seen : List Token → List Token
  | [] => []
  | t :: ts => g.token ts.length t :: seen ts

def stream (s : Stream) : Stream := { seen := g.seen s.seen, rest := g.rest s.seen.length s.rest }

def reader (r : Reader) : Reader := { r with stream := g.stream r.stream }

@[simp] theorem length_rest (k : Nat) (ts : List Token) : (g.rest k ts).length = ts.length := by
  induction ts generalizing k with
  | nil => rfl
  | cons t ts ih => simp [rest, ih]

variable {r : Reader} {ts : List Token}

@[simp] theorem remaining_reader (r : Reader) : (g.reader r).stream.remaining = r.stream.remaining :=
  g.length_rest _ _

theorem rest_reader (h : r.stream.rest = t :: ts) : (g.reader r).stream.rest =
    g.token r.stream.seen.length t :: g.rest (r.stream.seen.length + 1) ts := by
  rw [reader, stream, h]
  rfl

/-- Rewording and reading a token can change places. -/
theorem reader_advance (r : Reader) (t : Token) (ts : List Token) : g.reader (r.advance t ts) =
    (g.reader r).advance (g.token r.stream.seen.length t) (g.rest (r.stream.seen.length + 1) ts) := rfl

theorem head?_reader (r : Reader) :
    (g.reader r).stream.rest.head? = r.stream.rest.head?.map (g.token r.stream.seen.length) := by
  cases h : r.stream.rest with
  | nil => rw [reader, stream, h]; rfl
  | cons t ts => rw [g.rest_reader h]; rfl

theorem pop_eq (h : r.stream.rest = t :: ts) : Parse.pop (g.reader r) =
    .ok (g.token r.stream.seen.length t) (g.reader (r.advance t ts)) :=
  Parse.pop_eq (g.rest_reader h)

theorem next_eq (wanted : Text) (h : r.stream.rest = t :: ts) : Parse.next wanted (g.reader r) =
    .ok (g.token r.stream.seen.length t) (g.reader (r.advance t ts)) :=
  Parse.next_eq wanted (g.rest_reader h)

theorem atText_eq (text : Text) (r : Reader) :
    Parse.atText text (g.reader r) = .ok ((r.stream.rest.head?.map (·.is text)).getD false) (g.reader r) := by
  rw [Parse.atText_eq, head?_reader, Option.map_map]
  congr 4
  funext t
  exact g.is_token _ t text

theorem atLineEnd_eq (r : Reader) : Parse.atLineEnd (g.reader r) = .ok ((r.stream.rest.head?.map fun t =>
    !t.raw && (t.category.isLineMarker || t.isCommentSign)).getD true) (g.reader r) := by
  rw [Parse.atLineEnd_eq, head?_reader, Option.map_map]
  congr 4
  funext t
  simp

/-! ## Comments only -/

def Spares : Bool → Nat → List Token → Prop
  | _, _, [] => True
  | before, k, t :: ts =>
    (t.raw = true → before = false → g.token k t = t) ∧ Spares (t.commentBehind before) (k + 1) ts

/-- What spares a list spares its end. -/
theorem Spares.append {g : Rewording} {before : Bool} {us : List Token} (h : g.Spares before k (ts ++ us)) :
    ∃ before', g.Spares before' (k + ts.length) us := by
  induction ts generalizing before k with
  | nil => exact ⟨before, h⟩
  | cons t ts ih =>
    obtain ⟨before', h⟩ := ih h.2
    refine ⟨before', ?_⟩
    rw [length_cons, Nat.add_comm ts.length, ← Nat.add_assoc]
    exact h

theorem spares_none (before : Bool) (k : Nat) (ts : List Token) : none.Spares before k ts := by
  induction ts generalizing before k with
  | nil => trivial
  | cons t ts ih =>
    refine ⟨fun ht _ => ?_, ih _ _⟩
    rw [none.token_raw k ht]
    rfl

end Rewording

/-! ## Fragments without the texts of comments -/

def Piece.silent : Piece → Piece
  | comment _ => comment []
  | piece => piece

def Fragment.silent (f : Fragment) : Fragment := f.map Piece.silent

namespace Fragment

@[simp] theorem silent_nil : silent [] = [] := rfl

@[simp] theorem silent_cons (p : Piece) (f : Fragment) : silent (p :: f) = p.silent :: silent f := rfl

@[simp] theorem silent_append (f f' : Fragment) : silent (f ++ f') = silent f ++ silent f' :=
  map_append

end Fragment

/-- A comment is written the same but for its text. -/
theorem LineComment.silent_fragment {documents : Bool} {text text' : Text} (h : text'.isEmpty = text.isEmpty) :
    Fragment.silent (LineComment.fragment ⟨documents, text'⟩) =
      Fragment.silent (LineComment.fragment ⟨documents, text⟩) := by
  cases hempty : text.isEmpty <;> simp [LineComment.fragment, h, hempty, LineComment.sign, Piece.silent]

theorem Clause.silent_copiedLines (level : Int) {lines lines' : List Text}
    (h : lines'.map List.isEmpty = lines.map List.isEmpty) :
    Fragment.silent (lines'.flatMap fun line => copiedLine level line .comment) =
      Fragment.silent (lines.flatMap fun line => copiedLine level line .comment) := by
  induction lines generalizing lines' with
  | nil =>
    rw [map_nil, map_eq_nil_iff] at h
    rw [h]
  | cons line lines ih =>
    obtain ⟨line', lines', rfl, hline, hlines⟩ := map_eq_cons_iff.mp h
    rw [flatMap_cons, flatMap_cons, Fragment.silent_append, Fragment.silent_append, ih hlines]
    congr 1
    cases hempty : line.isEmpty <;> simp [copiedLine, hline, hempty, Piece.silent]

end Offside
