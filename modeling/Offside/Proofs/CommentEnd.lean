/-
Where a block comment ends.

The lines of a block comment are copied without a search for `*/`, so one that has it ends the
comment early. How often it occurs is a sum over the lines.
-/
import Mathlib.Algebra.GroupWithZero.Nat
import Offside.Proofs.Passthrough

set_option autoImplicit false

namespace Offside

open List Text

/-! ## Terminators in a text -/

namespace Text

def commentEnd : Text := "*/"

def occurrences (word : Text) : Text → Nat
  | [] => 0
  | b :: t => (if word <+: b :: t then 1 else 0) + occurrences word t

variable {a b gap word t : Text}

theorem occurrences_eq_zero_iff (hword : word ≠ []) : occurrences word t = 0 ↔ ¬ word <:+: t := by
  induction t with
  | nil => simp [occurrences, hword]
  | cons b t ih =>
    rw [occurrences, infix_cons_iff, not_or, ← ih]
    split <;> simp [*]

theorem commentEnd_prefix_iff {x : UInt8} : commentEnd <+: x :: t ↔ x = '*'.toUInt8 ∧ t.head? = some '/'.toUInt8 := by
  have hend : commentEnd = ['*'.toUInt8, '/'.toUInt8] := rfl
  rw [hend, cons_prefix_cons, eq_comm]
  cases t with
  | nil => simp
  | cons y t => simp [cons_prefix_cons, eq_comm]

/-- A terminator is in one of two texts, or its star is the last byte of the first. -/
theorem occurrences_append (h : a.getLast? ≠ some '*'.toUInt8 ∨ b.head? ≠ some '/'.toUInt8) :
    occurrences commentEnd (a ++ b) = occurrences commentEnd a + occurrences commentEnd b := by
  induction a with
  | nil => exact (Nat.zero_add _).symm
  | cons x a ih =>
    have hfirst : commentEnd <+: x :: (a ++ b) ↔ commentEnd <+: x :: a := by
      rw [commentEnd_prefix_iff, commentEnd_prefix_iff]
      cases a with
      | nil =>
        -- The terminator would be half in the one text and half in the other.
        constructor
        · rintro ⟨rfl, hslash⟩
          exact (h.elim (fun hstar => hstar rfl) fun hne => hne hslash).elim
        · rintro ⟨-, hslash⟩
          cases hslash
      | cons y a => rfl
    have hrest : a.getLast? ≠ some '*'.toUInt8 ∨ b.head? ≠ some '/'.toUInt8 := by
      refine h.imp_left fun hlast heq => hlast ?_
      obtain ⟨front, rfl⟩ := getLast?_eq_some_iff.mp heq
      rw [← cons_append, getLast?_concat]
    rw [cons_append, occurrences, occurrences, ih hrest, Nat.add_assoc]
    simp only [hfirst]

/-- A line break neither completes nor splits a terminator. -/
theorem occurrences_lineBreak (hgap : '*'.toUInt8 ∉ gap) (a b : Text) :
    occurrences commentEnd (a ++ lineEnd :: gap ++ b) = occurrences commentEnd a + occurrences commentEnd b := by
  have hstar : '*'.toUInt8 ∉ lineEnd :: gap := by
    rw [mem_cons, not_or]
    exact ⟨by decide, hgap⟩
  have hnone : occurrences commentEnd (lineEnd :: gap) = 0 := by
    refine (occurrences_eq_zero_iff (by decide)).mpr fun hinfix => hstar ?_
    exact hinfix.subset mem_cons_self
  rw [occurrences_append, occurrences_append, hnone, Nat.add_zero]
  · refine .inr fun hslash => ?_
    exact absurd (Option.some.inj hslash) (by decide)
  · refine .inl fun hlast => hstar ?_
    rw [getLast?_append_of_ne_nil a (cons_ne_nil _ _)] at hlast
    exact mem_of_getLast? hlast

end Text

/-! ## The text of a block comment -/

namespace Clause

open Text (commentEnd occurrences)

variable {unit : Text} {level : Int}

theorem star_not_mem_repeated (hunit : '*'.toUInt8 ∉ unit) (n : Nat) : '*'.toUInt8 ∉ repeated n unit := by
  rw [repeated, mem_flatten]
  rintro ⟨copy, hcopy, hmem⟩
  rw [eq_of_mem_replicate hcopy] at hmem
  exact hunit hmem

theorem occurrences_copiedLine (hunit : '*'.toUInt8 ∉ unit) (a line : Text) :
    occurrences commentEnd (a ++ Fragment.render unit (copiedLine level line .comment)) =
      occurrences commentEnd a + occurrences commentEnd line := by
  rcases line with _ | ⟨x, line⟩
  · have hbreak := occurrences_lineBreak (star_not_mem_repeated hunit 0) a []
    rw [append_nil] at hbreak
    exact hbreak
  · have hbreak := occurrences_lineBreak (star_not_mem_repeated hunit level.toNat) a (x :: line)
    have hrender : Fragment.render unit (copiedLine level (x :: line) .comment) =
        Text.lineEnd :: repeated level.toNat unit ++ (x :: line) := by
      change Text.lineEnd :: repeated level.toNat unit ++ ((x :: line) ++ []) = _
      rw [append_nil]
    rw [hrender, ← append_assoc]
    exact hbreak

/-- Lines that are copied have their own terminators and no others. -/
theorem occurrences_copiedLines (hunit : '*'.toUInt8 ∉ unit) (a : Text) (lines : List Text) : occurrences commentEnd
        (a ++ Fragment.render unit (lines.flatMap fun line => copiedLine level line .comment)) =
      occurrences commentEnd a + (lines.map (occurrences commentEnd)).sum := by
  induction lines generalizing a with
  | nil => exact congrArg (occurrences commentEnd) (append_nil a)
  | cons line lines ih =>
    have hlines : Fragment.render unit ((line :: lines).flatMap fun line => copiedLine level line .comment) =
        Fragment.render unit (copiedLine level line .comment) ++
          Fragment.render unit (lines.flatMap fun line => copiedLine level line .comment) := by
      rw [flatMap_cons, Fragment.render, flatMap_append]
      rfl
    rw [hlines, ← append_assoc, ih, occurrences_copiedLine hunit, map_cons, sum_cons, Nat.add_assoc]

theorem render_blockComment (unit : Text) (documents : Bool) (level : Int) (lines : List Text) :
    (Clause.blockComment documents level lines).render unit =
      ((if documents then ("/**" : String) else ("/*" : String)) : Text) ++
        Fragment.render unit (lines.flatMap fun line => copiedLine (level + 1) line .comment) ++
        Text.lineEnd :: repeated level.toNat unit ++ commentEnd := by
  rw [render, fragment, Fragment.render, cons_append, flatMap_cons, flatMap_append]
  have hend : [Piece.lineBreak level, .code ("*/" : String)].flatMap (Piece.render unit) =
      Text.lineEnd :: repeated level.toNat unit ++ commentEnd := by
    change Text.lineEnd :: repeated level.toNat unit ++ (commentEnd ++ []) = _
    rw [append_nil]
  rw [hend]
  simp only [append_assoc]
  rfl

/-- A block comment has the terminators of its lines and one more. -/
theorem occurrences_blockComment (hunit : '*'.toUInt8 ∉ unit) (documents : Bool) (level : Int) (lines : List Text) :
    occurrences commentEnd ((Clause.blockComment documents level lines).render unit) =
      (lines.map (occurrences commentEnd)).sum + 1 := by
  have hopening : occurrences commentEnd (if documents then ("/**" : String) else ("/*" : String)) = 0 := by
    cases documents <;> decide
  rw [render_blockComment, occurrences_lineBreak (star_not_mem_repeated hunit _), occurrences_copiedLines hunit,
    hopening, Nat.zero_add]
  rfl

end Clause

/-! ## Reading a block comment -/

namespace Translate

variable {s : Session} {opener : Token} {lines : List Text} {ts rest : List Token}

theorem comment_of_written (sign : Token) (hopener : opener.is Marker.indent.text) (hlines : RawWritten lines ts)
    (hrest : s.stream.rest = opener :: (ts ++ rest)) :
    ∃ r, comment sign s = .ok (.blockComment (sign.text == "#.") sign.level lines)
        { s with reader := r, scopes := ⟨s.scopes.tags, some .comment⟩ } ∧
      r.stream.rest = rest ∧ r.helpers = s.reader.helpers := by
  obtain ⟨r, hblock, hr⟩ := rawBlock_of_written .comment rfl hlines hrest
  refine ⟨r, ?_, hr⟩
  rw [comment, lift_atText_cons hrest, if_pos hopener, bind_of_ok _ hblock]
  rfl

open Text (commentEnd occurrences) in
/-- A block comment ends with the terminator of comments, and this is the only one in it just if no
line has one. Every line is copied as it is, so each terminator in a line is one more in the
comment. -/
theorem comment_ends_once_iff {unit : Text} (sign : Token) (hunit : '*'.toUInt8 ∉ unit)
    (hopener : opener.is Marker.indent.text = true) (hlines : RawWritten lines ts)
    (hrest : s.stream.rest = opener :: (ts ++ rest)) :
    ∃ c s', comment sign s = .ok c s' ∧ s'.stream.rest = rest ∧ commentEnd <:+ c.render unit ∧
      occurrences commentEnd (c.render unit) = (lines.map (occurrences commentEnd)).sum + 1 ∧
      (occurrences commentEnd (c.render unit) = 1 ↔ ∀ line ∈ lines, ¬ commentEnd <:+: line) := by
  obtain ⟨r, hcomment, hr, -⟩ := comment_of_written sign hopener hlines hrest
  refine ⟨_, _, hcomment, hr, ?_, ?_⟩
  · rw [Clause.render_blockComment]
    exact suffix_append _ _
  · have hcount := Clause.occurrences_blockComment hunit (sign.text == "#.") sign.level lines
    refine ⟨hcount, ?_⟩
    rw [hcount, Nat.add_eq_right, List.sum_eq_zero_iff_forall_eq_nat, forall_mem_map]
    exact forall₂_congr fun line _ => Text.occurrences_eq_zero_iff (by decide)

/-- A comment of two lines, the first of which has a terminator: the comment has two of them and
ends too early. -/
theorem comment_ends_once_iff_early : let sign : Token := { text := ("#" : String), line := 1 }
    let opener : Token := { text := Marker.indent.text, line := 1, level := 1, depth := 1 }
    let first : Token := { text := ("a */ b" : String), line := 2, level := 1, depth := 1, raw := true }
    let newline : Token := { text := Marker.newline.text, line := 2, level := 1, depth := 1 }
    let last : Token := { text := ("c" : String), line := 3, level := 1, depth := 1, raw := true }
    let closer : Token := { text := Marker.dedent.text, line := 3 }
    RawWritten [first.text, last.text] [first, newline, last, closer] ∧
      ∃ c s', comment sign (Session.ofTokens [opener, first, newline, last, closer]) = .ok c s' ∧
        Text.occurrences Text.commentEnd (c.render ("  " : String)) = 2 := by
  intro sign opener first newline last closer
  have hunit : '*'.toUInt8 ∉ (("  " : String) : Text) := by decide
  have hblock : RawWritten [first.text, last.text] [first, newline, last, closer] :=
    .line rfl (.newline rfl (.line rfl (.close rfl)))
  have hrest : (Session.ofTokens [opener, first, newline, last, closer]).stream.rest =
      opener :: ([first, newline, last, closer] ++ []) := rfl
  obtain ⟨c, s', hcomment, -, -, hcount, -⟩ := comment_ends_once_iff sign hunit rfl hblock hrest
  exact ⟨hblock, c, s', hcomment, hcount⟩

end Translate

end Offside
