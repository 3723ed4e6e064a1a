/-
The mark of a jump.

One mark for all blocks says whether the last statement was a jump. A jump sets it before the end of
its line, and every other statement and every end of a block clears it.
-/
import Offside.Proofs.Translate.Context

set_option autoImplicit false

namespace Offside

open List Token Parse

/-! ## Statements that leave their block -/

/-- Does a statement that starts with this lexeme leave its block, when the raw block behind it
does? -/
def Lexeme.leaves (block : Bool) : Lexeme → Bool
  | .keyword (.statement .returnWord) | .keyword (.statement .breakWord) | .keyword (.statement .continueWord)
  | .keyword (.exceptionWord .raiseWord) => true
  | .keyword (.statement .passthroughWord) => block
  | _ => false

variable {jumped : Bool} {l : Lexeme} {s s' : Stream}

theorem Lexeme.leaves_eq_jumps (h : l ≠ .keyword (.statement .passthroughWord)) (block : Bool) :
    l.leaves block = l.jumps := by
  cases l with
  | keyword k =>
    cases k with
    | statement w => cases w <;> first | rfl | exact absurd rfl h
    | exceptionWord w => cases w <;> rfl
    | _ => rfl
  | _ => rfl

namespace Token

def leaveWords : List Text := ["return", "break", "continue", "raise"]

def endsInJump (ts : List Token) : Bool :=
  ((ts.filter raw).getLast?.map fun line => Translate.endsInJump line.text).getD false

/-- Does the statement with these tokens leave its block? Attributes may stand before its first
word. -/
def leaves (ts : List Token) : Bool :=
  match ts.dropWhile fun t => decide (t.category = .attributeWord) with
  | [] => false
  | t :: ts => leaveWords.any t.is || t.is "passthrough" && endsInJump ts

def startsStatement (t : Token) : Bool := !(t.isMarker || t.isCommentSign)

variable {t : Token} {ts : List Token}

theorem is_text_iff {k : Keyword} {w : Text} (hk : k.text? = some w) : t.is w ↔ t.lexeme = .keyword k := by
  rw [is_iff]
  constructor
  · rintro ⟨hraw, rfl⟩
    rw [lexeme_eq hraw]
    exact Lexeme.ofText_text hk
  · intro hlex
    have hraw : t.raw = false := by
      rw [lexeme] at hlex
      split at hlex
      · cases hlex
      · next hraw => rwa [Bool.not_eq_true] at hraw
    rw [lexeme_eq hraw] at hlex
    exact ⟨hraw, Lexeme.text_of_keyword hlex hk⟩

theorem leaves_attribute (h : t.category = .attributeWord) : leaves (t :: ts) = leaves ts := by
  rw [leaves, dropWhile_cons_of_pos (by simpa using h)]
  rfl

/-- Whether a line leaves its block is told by its first word. -/
theorem leaves_cons (h : t.lexeme ≠ .keyword .attributeWord) :
    leaves (t :: ts) = t.lexeme.leaves (endsInJump ts) := by
  have hword : ∀ (k : Keyword) (w : Text), k.text? = some w → t.is w = decide (t.lexeme = .keyword k) := by
    intro k w hk
    rw [Bool.eq_iff_iff, is_text_iff hk, decide_eq_true_iff]
  have hcategory : t.category ≠ .attributeWord := fun hc => h (Lexeme.category_eq_attributeWord_iff.mp hc)
  rw [leaves, dropWhile_cons_of_neg (by simpa using hcategory)]
  simp only [leaveWords, any_cons, any_nil]
  rw [hword (.statement .returnWord) "return" rfl, hword (.statement .breakWord) "break" rfl,
    hword (.statement .continueWord) "continue" rfl, hword (.exceptionWord .raiseWord) "raise" rfl,
    hword (.statement .passthroughWord) "passthrough" rfl]
  cases t.lexeme with
  | keyword k =>
    cases k with
    | statement w | exceptionWord w => cases w <;> simp [Lexeme.leaves]
    | _ => simp [Lexeme.leaves]
  | shape s | plain => simp [Lexeme.leaves]

def markAfter (mark : Bool) (t : Token) (ts : List Token) : Bool :=
  if t.startsStatement then leaves (t :: ts) else mark

/-- A statement sets the mark or clears it. -/
theorem markAfter_of_lexeme (mark : Bool) (hmarker : ∀ m : Marker, t.lexeme ≠ .keyword (.marker m))
    (hsign : t.lexeme ≠ .shape .punctuation) (ts : List Token) : markAfter mark t ts = leaves (t :: ts) := by
  have hstarts : t.startsStatement := by
    rw [startsStatement, isMarker_of_lexeme_ne hmarker, Bool.false_or, Bool.not_eq_true', Bool.eq_false_iff]
    exact fun h => hsign (lexeme_of_isCommentSign h)
  rw [markAfter, if_pos hstarts]

theorem markAfter_false (t : Token) (ts : List Token) : markAfter false t ts = leaves (t :: ts) := by
  rw [markAfter]
  split
  · rfl
  · next hstarts =>
    rw [startsStatement, Bool.not_eq_true, Bool.not_eq_false', Bool.or_eq_true] at hstarts
    rcases hstarts with hmarker | hsign
    · obtain ⟨m, hm⟩ := isMarker_iff_lexeme.mp hmarker
      rw [leaves_cons (by simp [hm]), hm]
      rfl
    · rw [leaves_cons (by simp [lexeme_of_isCommentSign hsign]), lexeme_of_isCommentSign hsign]
      rfl

/-- The last line of a raw block decides for it. -/
theorem endsInJump_of_written {lines : List Text} (h : RawWritten lines ts) :
    endsInJump ts = (lines.getLast?.map Translate.endsInJump).getD false := by
  have hlines : (ts.filter raw).map text = lines := by
    induction h with
    | @close t ht => rw [filter_cons_of_neg (by rw [(is_iff.mp ht).1]; exact Bool.false_ne_true)]; rfl
    | @line t lines ts ht _ ih => rw [filter_cons_of_pos ht, map_cons, ih]
    | @newline t lines ts ht _ ih =>
      rw [filter_cons_of_neg (by rw [(is_iff.mp ht).1]; exact Bool.false_ne_true), ih]
  rw [endsInJump, ← hlines, getLast?_map, Option.map_map]
  rfl

theorem endsInJump_cons (h : t.raw = false) : endsInJump (t :: ts) = endsInJump ts := by
  rw [endsInJump, filter_cons_of_neg (by rw [h]; exact Bool.false_ne_true)]
  rfl

end Token

theorem Stream.Reads.unique {ts us : List Token} (h : s.Reads ts s') (h' : s.Reads us s') :
    ts = us := append_cancel_right (h.1.symm.trans h'.1)

/-! ## What a clause does to the scopes and the mark -/

variable {t : Token}

theorem Stream.Reads.current (h : s.Reads [t] s') : s'.current = t := by
  rw [Stream.current, h.2]
  rfl

namespace Translate

open Session (Tracks)

variable {s : Session}

/-- A block that is copied sets the mark by its last line. -/
theorem copyFrom_marks (level : Int) (s : Session) :
    Ensures (copyFrom level) s fun c s' => ∃ ts, s.stream.Reads ts s'.stream ∧
      Tracks s.scopes.tags (Token.endsInJump ts) c s' := by
  refine .parse (atText_answers Marker.indent.text s.reader) ?_
  rintro (_ | _) r ⟨rfl, hindent⟩
  · exact .rejectNext
  · refine .seq (rawBlock_ensures (hindent rfl)) ?_
    rintro lines s' ⟨opener, ts, hopener, hreads, hlines, htags⟩
    refine .modify (.pure ⟨opener :: ts, hreads.stream, .stays htags ?_⟩)
    rw [endsInJump_cons (Token.is_iff.mp hopener).1, endsInJump_of_written hlines]

theorem passthrough_marks (t : Token) (s : Session) :
    Ensures (passthrough t) s fun c s' => ∃ ts, s.stream.Reads ts s'.stream ∧
      Tracks s.scopes.tags (Token.endsInJump ts) c s' := by
  rw [passthrough_eq]
  refine .parse (.of_safe (atText_spec _ s.reader)) ?_
  rintro (_ | _) r ⟨rfl, hcolon⟩
  · exact copyFrom_marks _ _
  · obtain ⟨colon, rest, hrest, his⟩ := hcolon rfl
    refine .parse (.of_safe (pop_spec hrest)) ?_
    rintro colon r₁ ⟨rfl, hread⟩
    refine (copyFrom_marks colon.level _).mono ?_
    rintro c s' ⟨ts, hreads, htracks⟩
    refine ⟨colon :: ts, Stream.Reads.trans hread hreads, ?_⟩
    rw [endsInJump_cons (Token.is_iff.mp his).1]
    exact htracks

/-- A clause leaves the mark that its tokens call for, unless it opens or closes a scope. -/
theorem clauseIn_marks {n : Nat} (hcurrent : s.stream.current = t) (h : s.Settled s.stream (-Token.balance [t]))
    (hn : s.remaining < n) : Ensures (clauseIn n t) s fun c s' => ∀ ts, s.stream.Reads ts s'.stream →
      Tracks s.scopes.tags (markAfter s.terminated t ts) c s' := by
  induction n generalizing t s with
  | zero => exact .throw
  | succ n ih =>
    refine .clauseIn fun first trace _ => ?_
    unfold clauseFrom
    split
    · next m hlex =>
      have his := is_of_lexeme_marker hlex
      have hstarts : t.startsStatement = false := by
        rw [startsStatement, isMarker_of_mark his]
        rfl
      refine .mono (marker_turns (v := s.view) m first t _) fun c s' hmarks ts _ => ?_
      rw [markAfter, hstarts]
      exact hmarks.2 his hcurrent
    · refine .ite (fun hsign => ?_) fun _ => .throw
      have hstarts : t.startsStatement = false := by
        rw [startsStatement, hsign, Bool.or_true]
        rfl
      refine (comment_turns (v := s.view) t _).mono fun c s' hmarks ts _ => ?_
      rw [markAfter, hstarts]
      exact hmarks.tracks
    · next hlex =>
      have hattribute : t.category = .attributeWord := by rw [Token.category, hlex]; rfl
      have hmark : ∀ ts, markAfter s.terminated t ts = Token.leaves ts := fun ts => by
        rw [markAfter_of_lexeme _ (by simp [hlex]) (by simp [hlex]), leaves_attribute hattribute]
      refine .modify (.modify ?_)
      refine .parse (.of_safe (atText_spec _ _)) ?_
      rintro (_ | _) _ ⟨rfl, hcolon⟩
      · refine .parse (.of_safe (next_spec _ _)) ?_
        intro after r hread
        have hread : s.reader.stream.Reads [after] r.stream := hread
        refine .guard fun _ => ?_
        -- The clause behind the attribute reads all of these tokens but the first.
        have hsettled : (⟨r, s.scopes.forget, s.generics, false, trace⟩ : Session).Settled r.stream
            (-Token.balance [after]) := by
          have hplain : Token.balance [t] = 0 := balance_plain fun u hu => by
            rw [mem_singleton.mp hu]
            exact isMarker_of_lexeme hlex
          have hr := h.read hread
          rw [hplain, Int.neg_zero, Int.zero_sub] at hr
          exact { hr.of_same rfl rfl rfl with reads := ⟨[], Stream.Reads.refl _⟩ }
        have hlen : r.remaining < n := by
          have hlen := Reader.remaining_of_reads hread
          change s.reader.remaining < n + 1 at hn
          omega
        refine .seq (P := fun c s' => ∃ us, r.stream.Reads us s'.stream ∧
          Tracks s.scopes.tags (markAfter false after us) c s') ?_ ?_
        · refine fun c s' hm => ?_
          obtain ⟨us, hus⟩ := ((clauseIn_spec hsettled hlen).of_ok hm).reads
          have hcurrent : (⟨r, s.scopes.forget, s.generics, false, trace⟩ : Session).stream.current = after :=
            hread.current
          exact ⟨us, hus, ih hcurrent hsettled hlen c s' hm us hus⟩
        · rintro c s' ⟨us, hus, htracks⟩
          refine .pure fun ts hts => ?_
          rw [hmark, hts.unique (Stream.Reads.trans hread hus)]
          rw [markAfter_false] at htracks
          exact htracks.attributed t.text
      · obtain ⟨colon, rest, hrest, his⟩ := hcolon rfl
        refine .mono (openBlock_effect _ rfl rfl) ?_
        rintro c s' ⟨-, -, -, -, htracks⟩ ts hts
        -- The first of these tokens, if there is one, is the colon.
        have hleaves : Token.leaves ts = false := by
          have hsplit : colon :: rest = ts ++ s'.stream.rest := hrest.symm.trans hts.1
          rcases ts with _ | ⟨u, ts⟩
          · rfl
          · obtain ⟨rfl, -⟩ := cons.inj hsplit
            obtain ⟨hraw, htext⟩ := Token.is_iff.mp his
            have hcolon : colon.lexeme = .shape .punctuation := by
              rw [lexeme_eq hraw, htext, Lexeme.ofText_sign (by decide)]
            rw [leaves_cons (by simp [hcolon]), hcolon]
            rfl
        rw [hmark, hleaves]
        exact htracks
    · next hlex =>
      refine .modify (.modify (.mono (passthrough_marks t _) ?_))
      rintro c s' ⟨us, hus, htracks⟩ ts hts
      rw [hts.unique hus, markAfter_of_lexeme _ (by simp [hlex]) (by simp [hlex]),
        leaves_cons (by simp [hlex]), hlex]
      exact htracks
    case h_5 hlex | h_6 hlex =>
      refine .modify ((labels_turns (v := s.view) t rfl).mono fun c s' hmarks ts _ => ?_)
      rw [markAfter_of_lexeme _ (by simp [hlex]) (by simp [hlex]), leaves_cons (by simp [hlex]), hlex]
      exact hmarks.tracks
    · next hmarker hpunctuation hattribute hpass _ _ =>
      refine .modify ((continuation_turns _ t rfl).mono fun c s' hmarks ts _ => ?_)
      rw [markAfter_of_lexeme _ hmarker hpunctuation, leaves_cons hattribute, Lexeme.leaves_eq_jumps hpass]
      exact hmarks.tracks

end Translate

end Offside
