/-
The text of clauses, line by line.

Between markers stand runs of tokens, and each run is the text of one line, which starts with code
and ends with the comment of the tokens. `Lined unit ts x y` says so for tokens `ts` and text `x`.
-/
import Offside.Proofs.Layout.Line

set_option autoImplicit false

namespace Offside

open List Text Token Fragment Category LineComment Clause

/-! ## Code starts a line -/

variable {bare : Bool} {p t u : Text} {b : UInt8} {words : List Text} {us : List Token}

namespace Text

def Starts (t : Text) : Prop := ∃ b rest, t = b :: rest ∧ Word.startsCode b

theorem Starts.append (h : Starts t) (t' : Text) : Starts (t ++ t') := by
  obtain ⟨b, rest, rfl, hb⟩ := h
  exact ⟨b, rest ++ t', rfl, hb⟩

/-- A word as it may stand in code. -/
structure Legible (w : Text) : Prop where
  lineEnd : lineEnd ∉ w
  starts : Starts w

end Text

theorem TypeExpr.starts {type : TypeExpr} (h : type.WellFormed) (hl : Leaves Legible type.words) :
    Starts type.code := by
  cases type with
  | plain name dimensions =>
    exact (hl.first (spells_of_isTypeName h.1)).starts.append _
  | applied name argument dimensions =>
    have hname := (hl.first (spells_of_isTypeName h.1)).starts
    rw [TypeExpr.code, append_assoc, append_assoc]
    exact hname.append _
  | appliedAll name arguments dimensions =>
    have hname := (hl.first (spells_of_isTypeName h.1)).starts
    rw [TypeExpr.code, append_assoc, append_assoc, append_assoc]
    exact hname.append _

theorem Target.starts {t : Target} (h : t.operand.WellFormed) (hl : Leaves Legible t.operand.words) : Starts t.code :=
  (hl.first (spells_of_isAtom h.1)).starts.append _

/-- The code of a statement starts with code. -/
theorem Simple.starts {s : Simple} (h : s.WellFormed) (hl : Leaves Legible s.words) : Starts s.code := by
  have hbody : Starts s.body := by
    cases s with
    | pass => exact ⟨_, _, rfl, rfl⟩
    | result value => cases value <;> exact ⟨_, _, rfl, rfl⟩
    | jump word => rcases h with rfl | rfl <;> exact ⟨_, _, rfl, rfl⟩
    | declaration type bindings =>
      rw [Simple.body, append_assoc]
      exact (TypeExpr.starts h.1 (Leaves.left hl)).append _
    | assignment target operator value =>
      rw [Simple.body, append_assoc, append_assoc, append_assoc]
      exact (Target.starts h.1 (Leaves.left hl)).append _
    | call target => exact Target.starts h hl
    | _ => exact ⟨_, _, rfl, rfl⟩
  unfold Simple.code
  split
  · exact hbody
  · exact hbody.append _

theorem FunctionHeader.starts {f : FunctionHeader} (h : f.WellFormed) (hl : Leaves Legible (f.words bare)) :
    Starts f.code := by
  have hresult : Starts f.resultCode := by
    have htype := h.result
    have hwords := (FunctionHeader.leaves_parameters hl).2
    rw [FunctionHeader.resultWords] at hwords
    rw [FunctionHeader.resultCode]
    cases hresult : f.result with
    | none => cases f.word <;> exact ⟨_, _, rfl, rfl⟩
    | some type =>
      rw [hresult] at hwords htype
      exact TypeExpr.starts (htype type rfl) hwords.tail
  have hfront : Starts (f.qualifiers ++ f.resultCode) := by
    rw [FunctionHeader.qualifiers]
    split
    · exact ⟨_, _, rfl, rfl⟩
    · exact ⟨_, _, rfl, rfl⟩
    · exact hresult
  simp only [FunctionHeader.code, append_assoc] at hfront ⊢
  rw [← append_assoc]
  exact hfront.append _

/-- So does the code of a header. -/
theorem Header.starts {header : Header} (h : header.WellFormed) (hl : Leaves Legible (header.words bare)) :
    Starts header.code := by
  cases header with
  | catching type name => cases name <;> exact ⟨_, _, rfl, rfl⟩
  | function header => exact FunctionHeader.starts h hl.tail
  | userType header =>
    obtain ⟨word, name, parameters, parents⟩ := header
    cases word <;> exact ⟨_, _, rfl, rfl⟩
  | attributes word =>
    exact (hl.first (spells_of_eq h (by decide))).starts
  | _ => exact ⟨_, _, rfl, rfl⟩

theorem Label.starts (label : Label) : Starts label.code := by
  cases label <;> exact ⟨_, _, rfl, rfl⟩

/-! ## Comments -/

variable {level : Int} {tags tags' : List Tag} {lines : List Text} {ts : List Token} {c : LineComment}
  {comment : Option LineComment}

namespace LineComment

def code (c : LineComment) : Text := if c.text.isEmpty then c.sign else c.sign ++ " " ++ c.text

/-- A comment is its sign and its text. -/
theorem render_fragment (unit : Text) (c : LineComment) : Fragment.render unit c.fragment = c.code := by
  rw [fragment, code]
  split <;> simp [Piece.render]

theorem starts (c : LineComment) : Starts c.code := by
  have hsign : Starts c.sign := by
    rw [sign]
    split <;> exact ⟨_, _, rfl, rfl⟩
  rw [code]
  split
  · exact hsign
  · exact (hsign.append _).append _

theorem lineEnd_not_mem (h : Text.lineEnd ∉ c.text) : Text.lineEnd ∉ c.code := by
  have hsign : Text.lineEnd ∉ c.sign := by
    rw [sign]
    split <;> decide
  rw [code]
  split
  · exact hsign
  · simpa [hsign, h] using (by decide : Text.lineEnd ∉ ((" " : String) : Text))

def trailingCode : Option LineComment → Text
  | none => []
  | some c => " " ++ c.code

theorem render_trailing (unit : Text) (comment : Option LineComment) :
    Fragment.render unit (trailing comment) = trailingCode comment := by
  cases comment with
  | none => rfl
  | some c =>
    rw [trailing, render_cons, render_fragment]
    rfl

end LineComment

/-! ## Tokens -/

namespace Token

/-- What a scanned token is like. -/
structure Proper (t : Token) : Prop where
  lineEnd : Text.lineEnd ∉ t.text
  starts : t.IsCode → Starts t.text
  level : 0 ≤ t.level

/-- Neighbours, of which a raw token that starts a block is not empty. -/
structure Neighbours (t u : Token) : Prop extends Adjacent t u where
  nonempty : t.is Marker.indent.text → u.raw → u.text ≠ []

theorem Codes.ne_nil (h : Codes ts words) (hwords : words ≠ []) : ts ≠ [] := by
  rintro rfl
  exact hwords h.1.symm

theorem Codes.plain (h : Codes ts words) : ∀ t ∈ ts, t.isMarker = false := fun t ht => (h.2 t ht).marker

/-- The words of proper tokens are legible. -/
theorem Codes.leaves_legible (h : Codes ts words) (hts : ∀ t ∈ ts, t.Proper) : Leaves Legible words := by
  obtain ⟨rfl, hcode⟩ := h
  refine ⟨fun w hw _ => ?_, .inl ⟨by decide, _, _, rfl, rfl⟩⟩
  obtain ⟨t, ht, rfl⟩ := mem_map.mp hw
  exact ⟨(hts t ht).lineEnd, (hts t ht).starts (hcode t ht)⟩

/-- Tokens whose code has no two minus signs where they would come together, and no raw text two
together. -/
structure Calm (ts : List Token) : Prop where
  raw : ∀ t ∈ ts, t.raw → t.text.NoDecrement
  word : ∀ t ∈ ts, t.IsCode → t.text.Mild
  apart : ∀ run words, run <:+: ts → Codes run words → Apart words

/-- A part of calm tokens is calm. -/
theorem Calm.part (h : Calm ts) (hus : us <:+: ts) : Calm us where
  raw t ht := h.raw t (hus.subset ht)
  word t ht := h.word t (hus.subset ht)
  apart run words hrun := h.apart run words (hrun.trans hus)

theorem Calm.left (h : Calm (ts ++ us)) : Calm ts := h.part (prefix_append ts us).isInfix

theorem Calm.right (h : Calm (ts ++ us)) : Calm us := h.part (suffix_append ts us).isInfix

theorem Calm.tail {t : Token} (h : Calm (t :: ts)) : Calm ts := h.part (suffix_cons t ts).isInfix

/-- The words of calm tokens are mild. -/
theorem Codes.leaves_mild (h : Codes ts words) (hcalm : Calm ts) : Leaves Mild words := by
  refine ⟨fun w hw _ => ?_, .inr (hcalm.apart ts words (infix_refl ts) h)⟩
  obtain ⟨rfl, hcode⟩ := h
  obtain ⟨t, ht, rfl⟩ := mem_map.mp hw
  exact hcalm.word t ht (hcode t ht)

end Token

theorem LineComment.noDecrement (h : c.text.NoDecrement) : c.code.NoDecrement := by
  have hsign : minusSign ∉ c.sign ∧ minusSign ∉ c.sign ++ " " := by
    rw [sign]
    split <;> decide
  rw [code]
  split
  · exact noDecrement_of_not_mem hsign.1
  · exact (settled_of_not_mem hsign.2).append h

theorem LineComment.WrittenAfter.noDecrement (h : WrittenAfter comment ts) (hcalm : Calm ts) :
    (trailingCode comment).NoDecrement := by
  cases comment with
  | none => exact noDecrement_of_not_mem not_mem_nil
  | some c =>
    have htext : c.text.NoDecrement := by
      cases h with
      | bare => exact noDecrement_of_not_mem not_mem_nil
      | text hsign ht => exact hcalm.raw _ (by simp) ht
    exact (settled_of_not_mem (a := " ") (by decide)).append (LineComment.noDecrement htext)

theorem LineComment.WrittenAfter.plain (h : WrittenAfter comment ts) : ∀ t ∈ ts, t.isMarker = false := by
  intro t ht
  rcases h.mem t ht with hsign | hraw
  · exact isMarker_of_isCommentSign hsign
  · exact isMarker_of_raw hraw

theorem LineComment.WrittenAfter.lineEnd_not_mem (h : WrittenAfter comment ts)
    (hts : ∀ t ∈ ts, t.Proper) : Text.lineEnd ∉ trailingCode comment := by
  cases comment with
  | none => exact not_mem_nil
  | some c =>
    have htext : Text.lineEnd ∉ c.text := by
      cases h with
      | bare => exact not_mem_nil
      | @text sign t hsign ht => exact (hts t (by simp)).lineEnd
    rw [trailingCode, mem_append, not_or]
    exact ⟨by decide, LineComment.lineEnd_not_mem htext⟩

theorem Text.Woven.lineEnd_not_mem_of_legible (h : Woven Legible t) :
    Text.lineEnd ∉ t := h.lineEnd_not_mem fun _ hw => hw.lineEnd

/-! ## Runs -/

/-- Tokens of one line, and the text that they become. -/
structure LineText (run : List Token) (p : Text) : Prop where
  nonempty : run ≠ []
  starts : Starts p
  lineEnd : Text.lineEnd ∉ p
  comment : ∃ codes cs comment, run = codes ++ cs ∧ (∀ t ∈ codes, t.IsCode) ∧
    WrittenAfter comment cs ∧ ∀ c ∈ comment, c.code <:+ p
  noDecrement : Calm run → p.NoDecrement

theorem LineText.head_raw {run : List Token} (h : LineText run p) : ∀ t ∈ run.head?, t.raw = false := by
  obtain ⟨codes, cs, comment, hsplit, hcodes, hcomment, -⟩ := h.comment
  intro t ht
  rw [hsplit] at ht
  cases codes with
  | cons u codes =>
    cases ht
    exact (hcodes _ mem_cons_self).raw
  | nil =>
    cases comment with
    | none =>
      rw [WrittenAfter] at hcomment
      rw [hcomment] at ht
      cases ht
    | some c =>
      cases hcomment with
      | bare hsign | text hsign =>
        cases ht
        exact raw_of_isCommentSign hsign

def prefixText (pre : List Token) : Text := pre.flatMap fun t => t.text ++ " "

theorem noPrefix : ∀ t ∈ ([] : List Token), t.Proper ∧ t.IsCode := fun _ ht => nomatch ht

section

variable {pre ts cs : List Token} {p close : Text} (hpre : ∀ t ∈ pre, t.Proper ∧ t.IsCode)

include hpre

theorem starts_prefixText (hp : Starts p) : Starts (prefixText pre ++ p) := by
  cases pre with
  | nil => exact hp
  | cons t pre =>
    obtain ⟨hproper, hcode⟩ := hpre t mem_cons_self
    rw [prefixText, flatMap_cons, append_assoc, append_assoc]
    exact (hproper.starts hcode).append _

theorem lineEnd_not_mem_prefixText : Text.lineEnd ∉ prefixText pre := by
  intro hmem
  obtain ⟨t, ht, hmem⟩ := mem_flatMap.mp hmem
  rcases mem_append.mp hmem with hmem | hmem
  · exact (hpre t ht).1.lineEnd hmem
  · exact absurd hmem (by decide)

theorem settled_prefixText (hcalm : Calm pre) :
    (prefixText pre).Settled := by
  induction pre with
  | nil => exact settled_of_not_mem not_mem_nil
  | cons t pre ih =>
    obtain ⟨ht, hpre⟩ := forall_mem_cons.mp hpre
    have hword := (hcalm.word t mem_cons_self ht.2).inside
    have hspace : Settled (" " : Text) := settled_of_not_mem (by decide)
    refine Settled.trans ⟨hword.join ⟨hspace.inside, by decide⟩, ?_⟩ (ih hpre hcalm.tail)
    rw [getLast?_append_of_ne_nil _ (by decide)]
    exact hspace.last

theorem head_prefixText (hp : ∃ b ∈ p.head?, b ≠ Text.lineEnd) :
    ∃ b ∈ (prefixText pre ++ p).head?, b ≠ Text.lineEnd := by
  by_cases hempty : prefixText pre = []
  · rw [hempty]
    exact hp
  · obtain ⟨b, rest, htext⟩ := exists_cons_of_ne_nil hempty
    refine ⟨b, by rw [htext]; rfl, ?_⟩
    rintro rfl
    exact lineEnd_not_mem_prefixText hpre (htext ▸ mem_cons_self)

/-- Code and its comment are the text of a line. -/
theorem lineText_code (hcodes : Codes ts words) (hwords : words ≠ []) (hts : ∀ t ∈ ts, t.Proper)
    (hstarts : Starts p) (hwoven : ∀ {leaf : Text → Prop}, Leaves leaf words → Woven leaf p)
    (hclose : Text.lineEnd ∉ close ∧ minusSign ∉ close)
    (hcomment : WrittenAfter comment cs) (hcs : ∀ t ∈ cs, t.Proper) :
    LineText (pre ++ (ts ++ cs)) (prefixText pre ++ (p ++ (close ++ trailingCode comment))) where
  nonempty := by simp [hcodes.ne_nil hwords]
  starts := starts_prefixText hpre (hstarts.append _)
  lineEnd := by
    have hp := (hwoven (hcodes.leaves_legible hts)).lineEnd_not_mem_of_legible
    simp only [mem_append, not_or]
    exact ⟨lineEnd_not_mem_prefixText hpre, hp, hclose.1, hcomment.lineEnd_not_mem hcs⟩
  comment := by
    refine ⟨pre ++ ts, cs, comment, (append_assoc ..).symm, ?_, hcomment, fun c hc => ?_⟩
    · exact forall_mem_append.mpr ⟨fun t ht => (hpre t ht).2, hcodes.2⟩
    · obtain rfl := hc
      have hsuffix : c.code <:+ trailingCode (some c) := suffix_append _ _
      exact ((hsuffix.trans (suffix_append _ _)).trans (suffix_append _ _)).trans (suffix_append _ _)
  noDecrement hcalm := by
    have hp := (hwoven (hcodes.leaves_mild hcalm.right.left)).settled
    have hbehind := (settled_of_not_mem hclose.2).append (hcomment.noDecrement hcalm.right.right)
    exact (settled_prefixText hpre hcalm.left).append (hp.append hbehind)

theorem lineText_comment (hc : c.Written cs) (hcs : ∀ t ∈ cs, t.Proper) :
    LineText (pre ++ cs) (prefixText pre ++ c.code) where
  nonempty := by cases hc <;> simp
  starts := starts_prefixText hpre c.starts
  lineEnd := by
    have hafter : WrittenAfter (some c) cs := hc
    have hno := hafter.lineEnd_not_mem hcs
    rw [trailingCode, mem_append, not_or] at hno
    rw [mem_append, not_or]
    exact ⟨lineEnd_not_mem_prefixText hpre, hno.2⟩
  comment := by
    refine ⟨pre, cs, some c, rfl, fun t ht => (hpre t ht).2, hc, ?_⟩
    rintro _ ⟨⟩
    exact suffix_append _ _
  noDecrement hcalm := by
    have hafter : WrittenAfter (some c) cs := hc
    have hcode := isChain_append.mp (hafter.noDecrement hcalm.right)
    exact (settled_prefixText hpre hcalm.left).append hcode.2.1

end

/-! ## Deeper lines -/

namespace Text

/-- The text with `u` in front of every line that is not empty. Its first bytes are the start of a
line or not. -/
def shift (u : Text) : Bool → Text → Text
  | _, [] => []
  | fresh, b :: t =>
    if b = lineEnd then b :: shift u true t
    else (if fresh then u else []) ++ b :: shift u false t

variable {u p x : Text}

/-- Within a line nothing is shifted. -/
theorem shift_append_of_line (hp : lineEnd ∉ p) (x : Text) : shift u false (p ++ x) = p ++ shift u false x := by
  induction p with
  | nil => rfl
  | cons b p ih =>
    rw [mem_cons, not_or] at hp
    rw [cons_append, shift, if_neg (Ne.symm hp.1), if_neg Bool.false_ne_true, ih hp.2]
    rfl

theorem shift_start (hb : b ≠ lineEnd) (x : Text) : shift u true (b :: x) = u ++ shift u false (b :: x) := by
  rw [shift, shift, if_neg hb, if_neg hb, if_pos rfl, if_neg Bool.false_ne_true]
  rfl

theorem shift_lineEnd (fresh : Bool) (x : Text) : shift u fresh (lineEnd :: x) = lineEnd :: shift u true x := by
  rw [shift, if_pos rfl]

def AtLineEnd (x : Text) : Prop := x = [] ∨ x.head? = some lineEnd

theorem AtLineEnd.shift (h : AtLineEnd x) (fresh : Bool) : shift u fresh x = shift u false x := by
  rcases h with rfl | h
  · rfl
  · obtain ⟨y, rfl⟩ := head?_eq_some_iff.mp h
    rw [shift_lineEnd, shift_lineEnd]

theorem lineEnd_not_mem_repeated (hu : lineEnd ∉ u) (n : Nat) : lineEnd ∉ repeated n u := by
  intro hmem
  obtain ⟨v, hv, hmem⟩ := mem_flatten.mp hmem
  rw [eq_of_mem_replicate hv] at hmem
  exact hu hmem

theorem repeated_succ (n : Nat) (u : Text) : repeated (n + 1) u = u ++ repeated n u := by
  rw [repeated, replicate_succ, flatten_cons]
  rfl

/-- A line break goes one level deeper. -/
theorem shift_lineBreak (hu : lineEnd ∉ u) (hlevel : 0 ≤ level) (hb : b ≠ lineEnd) (x : Text) :
    shift u false ((Piece.lineBreak level).render u ++ b :: x) =
      (Piece.lineBreak (level + 1)).render u ++ shift u false (b :: x) := by
  obtain ⟨n, rfl⟩ := Int.eq_ofNat_of_zero_le hlevel
  have hbreak : ∀ k : Nat, (Piece.lineBreak k).render u = lineEnd :: repeated k u := fun _ => rfl
  rw [show (n : Int) + 1 = (n + 1 : Nat) from rfl, hbreak, hbreak, cons_append, shift_lineEnd,
    repeated_succ, cons_append, append_assoc]
  congr 1
  -- The first byte of the line is one of the unit, or `b` if there is no unit.
  obtain ⟨c, rest, hline, hc⟩ : ∃ c rest, repeated n u ++ b :: x = c :: rest ∧ c ≠ lineEnd := by
    rcases hunits : repeated n u with _ | ⟨c, units⟩
    · exact ⟨b, x, rfl, hb⟩
    · refine ⟨c, units ++ b :: x, rfl, ?_⟩
      rintro rfl
      exact lineEnd_not_mem_repeated hu n (hunits ▸ mem_cons_self)
  rw [hline, shift_start hc, ← hline, shift_append_of_line (lineEnd_not_mem_repeated hu n)]

end Text

/-- So do lines that are copied. -/
theorem shift_copied {x : Text} (hu : Text.lineEnd ∉ u) {p : Text → Piece}
    (hpiece : ∀ line, (p line).render u = line) (hlevel : 0 ≤ level) (hlines : ∀ line ∈ lines, Text.lineEnd ∉ line)
    (hx : AtLineEnd x) : AtLineEnd (Fragment.render u (lines.flatMap fun l => copiedLine level l p) ++ x) ∧
    shift u false
        (Fragment.render u (lines.flatMap fun l => copiedLine level l p) ++ x) =
      Fragment.render u (lines.flatMap fun l => copiedLine (level + 1) l p) ++
        shift u false x := by
  induction lines with
  | nil => exact ⟨hx, rfl⟩
  | cons line lines ih =>
    obtain ⟨hline, hlines⟩ := forall_mem_cons.mp hlines
    obtain ⟨hafter, hshift⟩ := ih hlines
    simp only [flatMap_cons, render_append, append_assoc]
    refine ⟨.inr ?_, ?_⟩
    · rw [copiedLine]
      split <;> rfl
    cases line with
    | nil =>
      have hbreak : Fragment.render u (copiedLine level [] p) = [Text.lineEnd] := rfl
      have hbreak' : Fragment.render u (copiedLine (level + 1) [] p) = [Text.lineEnd] := rfl
      rw [hbreak, hbreak', singleton_append, singleton_append, shift_lineEnd, hafter.shift, hshift]
    | cons b rest =>
      have hcopied : ∀ k, Fragment.render u (copiedLine k (b :: rest) p) =
          (Piece.lineBreak k).render u ++ (b :: rest) := by
        intro k
        simp [copiedLine, hpiece]
      rw [mem_cons, not_or] at hline
      rw [hcopied, hcopied, append_assoc, append_assoc, cons_append,
        shift_lineBreak hu hlevel (Ne.symm hline.1), ← cons_append,
        shift_append_of_line (by simpa using hline), hshift]

section

variable {x : Text}

theorem joins_lineBreak (hu : minusSign ∉ u) (level : Int) (hx : x.NoDecrement) :
    ((Piece.lineBreak level).render u ++ x).Joins := by
  refine ⟨(settled_of_not_mem fun hmem => ?_).append hx, by rintro ⟨⟩⟩
  rcases mem_cons.mp hmem with hmem | hmem
  · exact absurd hmem (by decide)
  · obtain ⟨v, hv, hmem⟩ := mem_flatten.mp hmem
    rw [eq_of_mem_replicate hv] at hmem
    exact hu hmem

theorem joins_copied (hu : minusSign ∉ u) (level : Int) {p : Text → Piece} (hpiece : ∀ line, (p line).render u = line)
    (hlines : ∀ line ∈ lines, line.NoDecrement) (hx : x.Joins) :
    (Fragment.render u (lines.flatMap fun l => copiedLine level l p) ++ x).Joins := by
  induction lines with
  | nil => exact hx
  | cons line lines ih =>
    obtain ⟨hline, hlines⟩ := forall_mem_cons.mp hlines
    rw [flatMap_cons, render_append, append_assoc, copiedLine]
    split
    · simpa using joins_lineBreak hu 0 (ih hlines).inside
    · simpa [hpiece] using joins_lineBreak hu level (hline.join (ih hlines))

end

/-! ## Lines -/

/-- The tokens `ts` and their text `x`, and the text `y` that is one level deeper. -/
inductive Lined (u : Text) : List Token → Text → Text → Prop
  | nil : Lined u [] [] []
  | start {m : Token} {ts : List Token} {x y : Text} (hm : m.is Marker.begin.text)
      (h : Lined u ts x y) : Lined u (m :: ts) x y
  | line {m : Token} {ts : List Token} {x y : Text}
      (hm : m.is Marker.newline.text ∨ m.is Marker.indent.text) (h : Lined u ts x y) :
    Lined u (m :: ts) ((Piece.lineBreak m.level).render u ++ x)
      ((Piece.lineBreak (m.level + 1)).render u ++ y)
  | closing {m : Token} {ts : List Token} {x y : Text} {c : Closing} {tag : Tag}
      (hm : m.is Marker.dedent.text) (hc : c.Closes tag m) (h : Lined u ts x y) :
    Lined u (m :: ts) (c.fragment.render u ++ x) ((c.raise 1).fragment.render u ++ y)
  | text {run ts : List Token} {p x y : Text} (hrun : LineText run p)
      (hplain : ∀ t ∈ run, t.isMarker = false) (hts : ∀ t ∈ ts.head?, t.isMarker)
      (h : Lined u ts x y) : Lined u (run ++ ts) (p ++ x) (p ++ y)
  | raw {before ts : List Token} {m r : Token} {p q x y : Text} (rs : List Token) (hne : before ≠ [])
      (hbefore : ∀ t ∈ before, t.isMarker = false ∧ t.raw = false)
      (hm : m.is Marker.indent.text) (hr : r.raw)
      (hstart : ∃ b ∈ p.head?, b ≠ Text.lineEnd)
      (hpq : Text.lineEnd ∉ u → ∀ z, AtLineEnd z → shift u false (p ++ z) = q ++ shift u false z)
      (hp : minusSign ∉ u → Calm (before ++ m :: r :: rs) → p.NoDecrement)
      (hrs : ∃ d ∈ (r :: rs).getLast?, d.is Marker.dedent.text)
      (hts : ∀ t ∈ ts.head?, t.isMarker) (h : Lined u ts x y) :
    Lined u (before ++ m :: r :: (rs ++ ts)) (p ++ x) (q ++ y)

namespace Lined

variable {u x y : Text} {ts : List Token}

theorem head_raw (h : Lined u ts x y) : ∀ t ∈ ts.head?, t.raw = false := by
  intro t ht
  cases h with
  | nil => cases ht
  | start hm h | closing hm hc h =>
    cases ht
    exact (is_iff.mp hm).1
  | line hm h =>
    cases ht
    exact hm.elim (fun hm => (is_iff.mp hm).1) fun hm => (is_iff.mp hm).1
  | raw rs hne hbefore =>
    rw [head?_append_of_ne_nil _ hne] at ht
    exact (hbefore t (mem_of_mem_head? ht)).2
  | @text run ts p x y hrun hplain hts h =>
    rw [head?_append_of_ne_nil _ hrun.nonempty] at ht
    exact hrun.head_raw t ht

end Lined

theorem Simple.words_ne_nil (s : Simple) : s.words ≠ [] := by
  cases s with
  | declaration type bindings => cases type <;> simp [Simple.words, TypeExpr.words]
  | assignment target operator value => simp [Simple.words]
  | call target => simp [Simple.words, Target.operand, Operand.words]
  | _ => exact cons_ne_nil _ _

namespace RawWritten

variable {lines : List Text} {ts : List Token}

theorem getLast (h : RawWritten lines ts) : ∃ t ∈ ts.getLast?, t.is Marker.dedent.text := by
  induction h with
  | close ht => exact ⟨_, rfl, ht⟩
  | line ht h ih | newline ht h ih =>
    obtain ⟨t, hlast, hdedent⟩ := ih
    exact ⟨t, mem_getLast?_cons hlast, hdedent⟩

theorem head_isMarker (h : RawWritten lines ts) (hchain : (ts ++ us).IsChain Neighbours) :
    ∀ t ∈ us.head?, t.isMarker := by
  intro t ht
  obtain ⟨d, hd, hdedent⟩ := h.getLast
  have hadjacent := (isChain_append.mp hchain).2.2 d hd t ht
  rw [hadjacent.marker (isMarker_of_mark hdedent)]
  exact hdedent

/-- A raw block starts with a line that is not empty. -/
theorem exists_first {m : Token} (h : RawWritten lines ts) (hm : m.is Marker.indent.text)
    (hchain : (m :: (ts ++ us)).IsChain Neighbours) :
    ∃ r rs rest, ts = r :: rs ∧ lines = r.text :: rest ∧ r.raw ∧ r.text ≠ [] := by
  have hmarker : m.isMarker := isMarker_of_mark hm
  have hno : ∀ {t : Token} {rs : List Token} {kind : Marker}, ts = t :: rs →
      t.is kind.text → False := by
    rintro t rs kind rfl ht
    have hadjacent := (isChain_cons_cons.mp hchain).1
    have hdedent := hadjacent.marker hmarker
    rw [is_dedent_of_is_indent hm, isMarker_of_mark ht] at hdedent
    cases hdedent
  cases h with
  | close ht | newline ht h => exact (hno rfl ht).elim
  | line ht h =>
    exact ⟨_, _, _, rfl, rfl, ht, (isChain_cons_cons.mp hchain).1.nonempty hm ht⟩

end RawWritten

/-! ## Clauses by lines -/

section

variable {u x y : Text} {pre ts cs us : List Token}

theorem LineComment.Written.head_isMarker (h : c.Written ts) (hchain : (ts ++ us).IsChain Neighbours)
    (hus : ∀ t ∈ us.head?, t.raw = false) : ∀ t ∈ us.head?, t.isMarker := by
  intro t ht
  obtain ⟨rest, rfl⟩ := head?_eq_some_iff.mp ht
  have hraw := hus t ht
  cases h with
  | bare hsign =>
    have hadjacent := (isChain_cons_cons.mp hchain).1
    exact (hadjacent.comment hsign).resolve_left (by simp [hraw])
  | text hsign hr =>
    have hadjacent := (isChain_cons_cons.mp (isChain_cons_cons.mp hchain).2).1
    exact hadjacent.text hr

/-- A line of code may stand before other lines. -/
theorem Lined.code (close : Text) (hpre : ∀ t ∈ pre, t.Proper ∧ t.IsCode) (hcodes : Codes ts words)
    (hwords : words ≠ []) (hts : ∀ t ∈ ts, t.Proper) (hstarts : Starts p)
    (hwoven : ∀ {leaf : Text → Prop}, Leaves leaf words → Woven leaf p)
    (hclose : Text.lineEnd ∉ close ∧ minusSign ∉ close) (hcomment : WrittenAfter comment cs)
    (hcs : ∀ t ∈ cs, t.Proper)
    (hus : ∀ t ∈ us.head?, t.isMarker) (h : Lined u us x y) : Lined u (pre ++ (ts ++ (cs ++ us)))
      (prefixText pre ++ (p ++ (close ++ (trailingCode comment ++ x))))
      (prefixText pre ++ (p ++ (close ++ (trailingCode comment ++ y)))) := by
  have hplain : ∀ t ∈ pre ++ (ts ++ cs), t.isMarker = false := by
    simp only [forall_mem_append]
    exact ⟨fun t ht => (hpre t ht).2.marker, hcodes.plain, hcomment.plain⟩
  have hline := Lined.text (lineText_code hpre hcodes hwords hts hstarts hwoven hclose hcomment hcs) hplain hus h
  simpa only [append_assoc] using hline

/-- So may labels. -/
theorem LabelLine.AllWritten.lined {lines : List LabelLine} (h : LabelLine.AllWritten lines ts)
    (hpre : ∀ t ∈ pre, t.Proper ∧ t.IsCode) (hts : ∀ t ∈ ts, t.Proper) (hus : Lined u us x y) :
    Lined u (pre ++ (ts ++ us)) (prefixText pre ++ (Fragment.render u (lines.flatMap LabelLine.fragment) ++ x))
      (prefixText pre ++
        (Fragment.render u ((lines.map (LabelLine.raise 1)).flatMap LabelLine.fragment) ++ y)) := by
  -- One label, and what comes after the marker of its line.
  have hline : ∀ {pre ts cs us : List Token} {m : Token} {l : LabelLine} {x y : Text},
      (∀ t ∈ pre, t.Proper ∧ t.IsCode) → (∀ t ∈ ts, t.Proper) → (∀ t ∈ cs, t.Proper) →
      l.Written ts cs m → (m.is Marker.newline.text ∨ m.is Marker.indent.text) →
      Lined u us x y →
      Lined u (pre ++ (ts ++ (cs ++ m :: us)))
        (prefixText pre ++ (Fragment.render u l.fragment ++ x))
        (prefixText pre ++ (Fragment.render u (l.raise 1).fragment ++ y)) := by
    intro pre ts cs us m l x y hpre hts hcs h hm hus
    have hmarker : m.isMarker :=
      hm.elim isMarker_of_mark isMarker_of_mark
    have hlined := Lined.code ":" hpre h.codes (by simp) hts l.label.starts
      (fun hl => Label.woven h.wellFormed hl.left) (by decide) h.comment hcs (by simpa using hmarker) (.line hm hus)
    rw [← h.level] at hlined
    simpa [LabelLine.fragment, LabelLine.raise, render_trailing, Piece.render]
      using hlined
  induction h generalizing pre with
  | @last l ts cs m h hm =>
    simp only [forall_mem_append] at hts
    simpa using hline hpre hts.1 hts.2.1 h (.inr hm) hus
  | @more l ls ts cs vs m h hm hls ih =>
    simp only [forall_mem_append, forall_mem_cons] at hts
    -- Attributes can only stand before the first label.
    have hbelow := ih noPrefix hts.2.2.2
    have hlined := hline hpre hts.1 hts.2.1 h (.inl hm) hbelow
    simpa [prefixText] using hlined

theorem eq_nil_of_marker {t : Token} {m : Marker} (ht : t.is m.text)
    (hfirst : pre ≠ [] → ∀ v ∈ [t].head?, v.isMarker = false) : pre = [] := by
  by_contra hne
  have hno := hfirst hne t rfl
  rw [isMarker_of_mark ht] at hno
  cases hno

/-- A block comment one level deeper. -/
theorem shift_blockComment (hu : Text.lineEnd ∉ u) (documents : Bool) (hlevel : 0 ≤ level)
    (hlines : ∀ line ∈ lines, Text.lineEnd ∉ line) :
    shift u false ((Clause.blockComment documents level lines).render u ++ x) =
      (Clause.blockComment documents (level + 1) lines).render u ++ shift u false x := by
  have hsign : Text.lineEnd ∉ (if documents then "/**" else "/*" : Text) := by
    split <;> decide
  have hclose : shift u false ((Piece.lineBreak level).render u ++ (("*/" : String) ++ x)) =
      (Piece.lineBreak (level + 1)).render u ++ ("*/" ++ shift u false x) := by
    have hline := shift_append_of_line (u := u) (p := ("*/" : String)) (by decide) x
    rw [← hline]
    exact shift_lineBreak hu hlevel (by decide) _
  have hcopied := (shift_copied (x := (Piece.lineBreak level).render u ++ (("*/" : String) ++ x)) hu
    (p := .comment) (fun _ => rfl) (Int.add_nonneg hlevel Int.one_nonneg) hlines (.inr rfl)).2
  simp only [Clause.render, Clause.fragment, cons_append, render_cons,
    render_append, render_nil, append_assoc, nil_append]
  refine (shift_append_of_line hsign _).trans ?_
  congr 1
  rw [hclose] at hcopied
  exact hcopied

theorem shift_passthrough (hu : Text.lineEnd ∉ u) (hlevel : 0 ≤ level)
    (hlines : ∀ line ∈ lines, Text.lineEnd ∉ line) (hx : AtLineEnd x) :
    shift u false ((Clause.passthrough level lines).render u ++ x) =
      (Clause.passthrough (level + 1) lines).render u ++ shift u false x := by
  cases lines with
  | nil => rfl
  | cons line lines =>
    obtain ⟨hline, hlines⟩ := forall_mem_cons.mp hlines
    have hcopied := (shift_copied hu (p := .verbatim) (fun _ => rfl) hlevel hlines hx).2
    simp only [Clause.render, Clause.fragment, render_cons, append_assoc]
    refine (shift_append_of_line hline _).trans ?_
    rw [hcopied]
    rfl

/-- A raw block behind some tokens, which become `p` with it, and `q` one level deeper. -/
theorem RawWritten.lined {m : Token} {q : Text} (h : RawWritten lines ts) (before : List Token)
    (hpre : ∀ t ∈ pre, t.Proper ∧ t.IsCode) (hne : before ≠ [])
    (hbefore : ∀ t ∈ before, t.isMarker = false ∧ t.raw = false) (hm : m.is Marker.indent.text)
    (hts : ∀ t ∈ ts, t.Proper) (hchain : (m :: (ts ++ us)).IsChain Neighbours)
    (hstart : ∀ b line rest, lines = (b :: line) :: rest → b ≠ Text.lineEnd → ∃ b ∈ p.head?, b ≠ Text.lineEnd)
    (hpq : Text.lineEnd ∉ u → (∀ line ∈ lines, Text.lineEnd ∉ line) → ∀ z, AtLineEnd z →
      shift u false (p ++ z) = q ++ shift u false z)
    (hp : minusSign ∉ u → (∀ line ∈ lines, line.NoDecrement) → p.NoDecrement) (hus : Lined u us x y) :
    Lined u (pre ++ (before ++ m :: (ts ++ us))) (prefixText pre ++ (p ++ x)) (prefixText pre ++ (q ++ y)) := by
  have hmarker := h.head_isMarker (isChain_cons.mp hchain).2
  have hlines := h.forall_line (P := (Text.lineEnd ∉ ·)) fun v hv _ => (hts v hv).lineEnd
  obtain ⟨r, rs, rest, rfl, rfl, hr, hr'⟩ := h.exists_first hm hchain
  obtain ⟨b, text, htext⟩ := exists_cons_of_ne_nil hr'
  have hb := hlines r.text mem_cons_self
  rw [htext, mem_cons, not_or] at hb
  have hfront : ∀ v ∈ pre ++ before, v.isMarker = false ∧ v.raw = false :=
    forall_mem_append.mpr ⟨fun v hv => ⟨(hpre v hv).2.marker, (hpre v hv).2.raw⟩, hbefore⟩
  have hlined := Lined.raw rs (q := prefixText pre ++ q) (by simp [hne]) hfront hm hr
    (head_prefixText hpre (hstart b text rest (by rw [htext]) (Ne.symm hb.1))) (fun hu z hz => ?_)
    (fun hu hcalm => ?_) h.getLast hmarker hus
  · simpa using hlined
  · rw [append_assoc, shift_append_of_line (lineEnd_not_mem_prefixText hpre), hpq hu hlines z hz,
      append_assoc]
  · exact (settled_prefixText hpre hcalm.left.left).append (hp hu (h.forall_line hcalm.right.tail.raw))

/-- A clause becomes lines, and a clause one level deeper the same lines shifted. -/
theorem Clause.Written.lined {c : Clause} (h : c.Written tags ts tags') (hpre : ∀ t ∈ pre, t.Proper ∧ t.IsCode)
    (hfirst : pre ≠ [] → ∀ t ∈ ts.head?, t.isMarker = false) (hts : ∀ t ∈ ts, t.Proper)
    (hchain : (ts ++ us).IsChain Neighbours) (hinput : c.endsInput = false) (hus : Lined u us x y) :
    Lined u (pre ++ (ts ++ us)) (prefixText pre ++ (c.render u ++ x))
      (prefixText pre ++ ((c.raise 1).render u ++ y)) := by
  -- The attributes read so far are written at the start of the clause's first line.
  induction h generalizing pre with
  | start tags ht =>
    obtain rfl := eq_nil_of_marker ht hfirst
    exact Lined.start ht hus
  | newline tags ht =>
    obtain rfl := eq_nil_of_marker ht hfirst
    simpa [prefixText, Clause.render, Clause.raise, Clause.fragment] using Lined.line (.inl ht) hus
  | dedent ht hc =>
    obtain rfl := eq_nil_of_marker ht hfirst
    exact Lined.closing ht hc hus
  | @lineComment tags c ts h =>
    have hafter : WrittenAfter (some c) ts := h
    have hplain : ∀ t ∈ pre ++ ts, t.isMarker = false :=
      forall_mem_append.mpr ⟨fun t ht => (hpre t ht).2.marker, hafter.plain⟩
    have hline := Lined.text (lineText_comment hpre h hts) hplain
      (h.head_isMarker hchain hus.head_raw) hus
    simpa [Clause.render, Clause.raise, Clause.fragment, render_fragment] using hline
  | @blockComment tags sign t lines ts hsign ht h =>
    obtain ⟨hproper, hts⟩ := forall_mem_cons.mp hts
    refine h.lined [sign] hpre (by simp) ?_ ht (forall_mem_cons.mp hts).2
      (isChain_cons.mp hchain).2 (fun _ _ _ _ _ => ⟨'/'.toUInt8, ?_, by decide⟩)
      (fun hu hlines z _ => shift_blockComment hu _ hproper.level hlines) (fun hu hlines => ?_) hus
    · simpa using ⟨isMarker_of_isCommentSign hsign, raw_of_isCommentSign hsign⟩
    · cases sign.text == "#." <;> rfl
    · have hopen : minusSign ∉ (if sign.text == "#." then "/**" else "/*" : Text) := by split <;> decide
      have hclose := joins_lineBreak hu sign.level (noDecrement_of_not_mem (a := "*/") (by decide))
      have hall := (noDecrement_of_not_mem hopen).join
        (joins_copied hu (sign.level + 1) (p := .comment) (fun _ => rfl) hlines hclose)
      simpa [Clause.render, Clause.fragment, Piece.render] using hall
  | @passthrough tags openers opener t lines ts hopener hopeners ht h =>
    simp only [forall_mem_append, forall_mem_cons] at hts
    have hopened : (t :: (ts ++ us)).IsChain Neighbours := by
      rw [append_assoc] at hchain
      exact (isChain_cons.mp (isChain_append.mp hchain).2.1).2
    have hcodes := codes_concat hopeners hopener
    have hbefore : ∀ v ∈ openers ++ [opener], v.isMarker = false ∧ v.raw = false :=
      fun v hv => ⟨(hcodes.2 v hv).marker, (hcodes.2 v hv).raw⟩
    have hlined := h.lined (p := (Clause.passthrough opener.level lines).render u)
      (q := (Clause.passthrough (opener.level + 1) lines).render u) _ hpre (by simp) hbefore ht hts.2.2.2 hopened
      (fun b line rest hlines hb => ⟨b, by rw [hlines]; rfl, hb⟩)
      (fun hu hlines z hz => shift_passthrough hu hts.2.1.level hlines hz) (fun hu hlines => ?_) hus
    · simpa [Clause.raise] using hlined
    · cases lines with
      | nil => exact noDecrement_of_not_mem not_mem_nil
      | cons line lines =>
        obtain ⟨hline, hlines⟩ := forall_mem_cons.mp hlines
        have hall := hline.join (joins_copied hu opener.level (p := .verbatim) (fun _ => rfl) hlines
          ⟨noDecrement_of_not_mem not_mem_nil, by simp⟩)
        simpa [Clause.render, Clause.fragment, Piece.render] using hall
  | @simple tags tags' s comment e ts cs es hcodes hs hcomment he =>
    simp only [forall_mem_append] at hts
    have hline : ∀ {x y : Text} {us : List Token}, (∀ t ∈ us.head?, t.isMarker) →
        Lined u us x y → _ := fun hus h =>
      Lined.code [] hpre hcodes s.words_ne_nil hts.1 (Simple.starts hs (hcodes.leaves_legible hts.1))
        (Simple.woven hs) (by decide) hcomment hts.2.1 hus h
    cases he with
    | input => cases hinput
    | line tags ht =>
      have hmarker := isMarker_of_mark ht
      have hlined := hline (by simpa using hmarker) (Lined.line (.inl ht) hus)
      simpa [Clause.render, Clause.raise, Clause.fragment, Ending.fragment, Ending.raise,
        render_trailing, Piece.render] using hlined
    | closing ht hc =>
      have hmarker := isMarker_of_mark ht
      have hlined := hline (by simpa using hmarker) (Lined.closing ht hc hus)
      simpa [Clause.render, Clause.raise, Clause.fragment, Ending.fragment, Ending.raise,
        render_trailing, Piece.render] using hlined
  | @block tags header comment bare ts cs t hcodes hheader hcomment ht =>
    simp only [forall_mem_append] at hts
    have hstarts := Header.starts hheader (hcodes.leaves_legible hts.1).left
    have hmarker := isMarker_of_mark ht
    have hlined := Lined.code " \x7b" hpre hcodes (by simp) hts.1 hstarts
      (fun hl => Header.woven hheader hl.left) (by decide) hcomment hts.2.1 (by simpa using hmarker)
      (.line (.inr ht) hus)
    simpa [Clause.render, Clause.raise, Clause.fragment, render_trailing, Piece.render]
      using hlined
  | labels tags h => exact h.lined hpre hts hus
  | @attributed tags tags' t c ts ht hcategory hhead h ih =>
    obtain ⟨hproper, hts⟩ := forall_mem_cons.mp hts
    have hpre' : ∀ v ∈ pre ++ [t], v.Proper ∧ v.IsCode :=
      forall_mem_append.mpr ⟨hpre, by simpa using ⟨hproper, ht⟩⟩
    have hlined := ih hpre' (fun _ => hhead) hts (isChain_cons.mp hchain).2 hinput
    simpa [prefixText, Clause.render, Clause.raise, Clause.fragment, Piece.render] using hlined

end

theorem Clause.Written.plain_of_endsInput {c : Clause} (h : c.Written tags ts tags') (hinput : c.endsInput) :
    ts ≠ [] ∧ ∀ t ∈ ts, t.isMarker = false := by
  induction h with
  | @simple tags tags' s comment e ts cs es hcodes hs hcomment he =>
    cases he with
    | input =>
      have hne := hcodes.ne_nil s.words_ne_nil
      rw [append_nil]
      refine ⟨by simp [hne], forall_mem_append.mpr ⟨fun t ht => (hcodes.2 t ht).marker, ?_⟩⟩
      exact hcomment.plain
    | line => cases hinput
    | closing => cases hinput
  | attributed ht hcategory hhead h ih =>
    exact ⟨cons_ne_nil _ _, forall_mem_cons.mpr ⟨ht.marker, (ih hinput).2⟩⟩
  | _ => cases hinput

/-- So do all clauses, by induction on them. -/
theorem Clause.AllWritten.lined {cs : List Clause} (h : Clause.AllWritten tags cs ts tags')
    (hts : ∀ t ∈ ts, t.Proper) (hchain : ts.IsChain Neighbours) (hlast : ∀ t ∈ ts.getLast?, t.isMarker) :
    Lined u ts (cs.map (Clause.render u)).flatten
      (cs.map fun c => (c.raise 1).render u).flatten := by
  induction h with
  | nil => exact .nil
  | @cons tags tags' tags'' c cs ts us hc hinput hcs ih =>
    have hgoes : c.endsInput = false := by
      rw [Bool.eq_false_iff]
      intro hends
      obtain ⟨hne, hplain⟩ := hc.plain_of_endsInput hends
      obtain rfl := hinput hends
      rw [append_nil] at hlast
      have hmarker := hlast _ (getLast?_eq_some_getLast hne)
      rw [hplain _ (getLast_mem hne)] at hmarker
      cases hmarker
    have hlast' : ∀ t ∈ us.getLast?, t.isMarker :=
      fun t ht => hlast t (mem_getLast?_append_of_mem_getLast? ht)
    obtain ⟨hts, hus⟩ := forall_mem_append.mp hts
    have hbelow := ih hus (isChain_append.mp hchain).2.1 hlast'
    exact hc.lined noPrefix (fun hne => absurd rfl hne) hts hchain hgoes hbelow

/-! ## Scanned tokens -/

/-- The tokens of a source are proper. -/
theorem proper_of_scan {unit source : Text} {scanned : Scanned}
    (h : (scan unit source).outcome = .ok scanned) : ∀ t ∈ scanned.tokens, t.Proper := by
  obtain ⟨rows, htokens, hlaid, hspelled⟩ := scan_spelled h
  have hmarkers : ∀ m : Marker, Text.lineEnd ∉ m.text := by
    intro m
    cases m <;> decide
  intro t ht
  have hlevel : 0 ≤ t.level := by
    obtain ⟨before, after, hsplit⟩ := append_of_mem ht
    exact ((laidOut_of_scan h).level before t after hsplit).2
  rw [htokens] at ht
  obtain hmarker | ⟨row, hrow, ht⟩ := Row.mem_allTokens ht
  · obtain ⟨m, hm⟩ := isMarker_iff.mp hmarker
    refine ⟨(is_iff.mp hm).2 ▸ hmarkers m, fun hcode => ?_, hlevel⟩
    rw [hcode.marker] at hmarker
    cases hmarker
  · refine ⟨(hspelled row hrow).lineEnd t ht, fun hcode => ?_, hlevel⟩
    cases hv : row.isVerbatim with
    | true =>
      cases row with
      | words => cases hv
      | verbatim number level text =>
        have hraw := hcode.raw
        rw [mem_singleton.mp ht] at hraw
        cases hraw
    | false =>
      obtain ⟨codes, cs, comment, hsplit, hcodes, hcomment⟩ := (hspelled row hrow).split hv
      rw [hsplit] at ht
      rcases mem_append.mp ht with ht | ht
      · exact (hcodes t ht).2
      · -- What belongs to a comment is no code.
        have hmem := hcomment.mem t ht
        rw [hcode.sign, hcode.raw] at hmem
        simp at hmem

end Offside
