/-
Context is a matter of indentation.

For a reader of the source, whether a word is admitted depends on the lines above it. They are found
by indentation (`Row.ancestors`, `Row.before?`), and no line of a raw block is among them.
-/
import Offside.Proofs.Layout.Ancestry
import Offside.Proofs.Outline

set_option autoImplicit false

namespace Offside

open List Token SourceHistory Row Outline

/-! ## The outline at a row -/

namespace Outline

variable {o : Outline} {row : Row} {rows : List Row}

/-- Before a row, when `rows` come before it, the nearest first, the outline has the rows above it. -/
structure At (o : Outline) (rows : List Row) (row : Row) : Prop where
  line : o.line = []
  above : o.above = (ancestors rows row.level).map Row.tokens
  last : row.isVerbatim = false → ∀ line ∈ o.last, ∃ r, before? rows row.level = some r ∧
    r.level = row.level ∧ r.tokens = line

theorem run_dedents {ds : List Token} (hds : ∀ t ∈ ds, t.is Marker.dedent.text) (hne : ds ≠ [])
    (o : Outline) : o.run ds =
      { last := (o.above.drop (ds.length - 1)).head?.bind code?, above := o.above.drop ds.length } := by
  induction ds generalizing o with
  | nil => exact absurd rfl hne
  | cons d ds ih =>
    obtain ⟨hd, hds⟩ := forall_mem_cons.mp hds
    rw [run_cons, read_dedent hd]
    cases ds with
    | nil => simp
    | cons e ds =>
      rw [ih hds (cons_ne_nil _ _)]
      simp

end Outline

variable {level : Nat} {unit source : Text} {t : Token} {l : Lexeme} {k : Keyword} {scanned : Scanned}
  {after before : List Row} {ts attributes : List Token}

namespace Row

open Outline (At)

variable {o : Outline} {a b row : Row} {rows : List Row}

theorem Sound.code? (h : a.Sound) (hv : a.isVerbatim = false) :
    Outline.code? a.tokens = if a.isComment then none else some a.tokens := by
  obtain ⟨t, ts, htokens, -⟩ := h.start hv
  rw [isComment, htokens, code?_cons]
  rfl

theorem code?_eq_some {line : List Token} (h : Outline.code? a.tokens = some line) :
    a.tokens = line ∧ a.isComment = false := by
  rw [Outline.code?] at h
  split at h
  · next hcode =>
    refine ⟨Option.some.inj h, ?_⟩
    rw [isComment]
    cases hhead : a.tokens.head? with
    | none => rfl
    | some t => simpa [hhead] using hcode
  · cases h

theorem before?_cons_of_code (hv : a.isVerbatim = false) (hlevel : a.level ≤ b.level)
    (hcode : a.isComment = false) (rows : List Row) : before? (a :: rows) b.level = some a := by
  rw [before?, find?_cons_of_pos]
  simp [hv, hlevel, hcode]

theorem before?_cons_of_comment (hcomment : a.isComment) (rows : List Row) (level : Nat) :
    before? (a :: rows) level = before? rows level := by
  rw [before?, before?, find?_cons_of_neg]
  simp [hcomment]

theorem before?_cons_of_deeper (hlevel : level < a.level) (rows : List Row) :
    before? (a :: rows) level = before? rows level := by
  rw [before?, before?, find?_cons_of_neg]
  simp
  omega

theorem before?_of_find? {r : Row}
    (h : rows.find? (fun row => !row.isVerbatim && decide (row.level ≤ level)) = some r)
    (hcode : r.isComment = false) : before? rows level = some r := by
  obtain ⟨hr, nearer, others, hrows, hnearer⟩ := find?_eq_some_iff_append.mp h
  refine find?_eq_some_iff_append.mpr ⟨?_, nearer, others, hrows, fun a ha => ?_⟩
  · rw [hr, hcode]
    rfl
  · have hno := hnearer a ha
    simp only [Bool.not_eq_true'] at hno ⊢
    rw [hno, Bool.false_and]

theorem at_indent (h : At o rows a) (hsound : a.Sound) (hv : a.isVerbatim = false)
    (hlevel : b.level = a.level + 1) (depth : Int) :
    At (o.run (a.tokens ++ [a.marker .indent b.level depth])) (a :: rows) b := by
  rw [run_line hsound.plain, run_cons, run_nil,
    read_indent (a.marker_is .indent _ _), h.line]
  refine ⟨rfl, ?_, fun _ _ hlast => nomatch hlast⟩
  rw [ancestors_parent hv hlevel.symm, h.above]
  rfl

theorem at_newline (h : At o rows a) (hsound : a.Sound) (hlevel : b.level = a.level)
    (hv : b.isVerbatim = false → a.isVerbatim = false) (depth : Int) :
    At (o.run (a.tokens ++ [a.marker .newline b.level depth])) (a :: rows) b := by
  rw [run_line hsound.plain, run_cons, run_nil,
    read_newline (a.marker_is .newline _ _), h.line, nil_append]
  refine ⟨rfl, ?_, fun hb line hline => ?_⟩
  · rw [ancestors_of_ne (by omega), hlevel]
    exact h.above
  · rw [hsound.code? (hv hb)] at hline
    cases hcomment : a.isComment with
    | true =>
      rw [hcomment] at hline
      rw [before?_cons_of_comment hcomment, hlevel]
      exact h.last (hv hb) line hline
    | false =>
      rw [hcomment] at hline
      obtain rfl : a.tokens = line := Option.some.inj hline
      exact ⟨a, before?_cons_of_code (hv hb) (by omega) hcomment _, hlevel.symm, rfl⟩

/-- A row that is less deep stands below the outer ones of these rows, and the line before it is the
innermost one of the others. -/
theorem at_dedent (h : At o rows a) (hsound : a.Sound) (hsteps : Steps rows)
    (hreaches : Reaches rows a.level) (hlevel : b.level < a.level) :
    At (o.run (a.tokens ++ a.closing b.level)) (a :: rows) b := by
  have hne : a.dedents b.level ≠ [] := by
    rw [← length_pos_iff, length_dedents]
    omega
  rw [run_line hsound.plain, closing_eq_dedents, Outline.run_append,
    run_dedents (a.is_dedent_of_mem_dedents b.level) hne, run_cons, run_nil,
    read_newline (a.marker_is .newline _ _), length_dedents]
  refine ⟨rfl, ?_, fun hb line hline => ?_⟩
  · rw [ancestors_of_ne (by omega), ancestors_drop hsteps hreaches (Nat.le_of_lt hlevel), map_drop,
      h.above]
  · -- The line before is the ancestor that the last dedent takes off.
    obtain ⟨r, hr, hrlevel, hfind⟩ := head?_ancestors hsteps (hreaches.mono (Nat.succ_le_of_lt hlevel))
    have hcount : a.level - (b.level + 1) = a.level - b.level - 1 := by omega
    rw [ancestors_drop hsteps hreaches (Nat.succ_le_of_lt hlevel), hcount] at hr
    have hhead : (o.above.drop (a.level - b.level - 1)).head? = some r.tokens := by
      rw [h.above, ← map_drop, head?_map, hr]
      rfl
    have hcode : Outline.code? r.tokens = some line := by
      rw [hhead] at hline
      exact hline
    obtain ⟨rfl, hcomment⟩ := code?_eq_some hcode
    rw [before?_cons_of_deeper hlevel]
    exact ⟨r, before?_of_find? hfind hcomment, hrlevel, rfl⟩

/-- The outline at a row gives the outline at the one below, whatever is between. -/
theorem Below.at (hbelow : Below a b) (h : At o rows a) (hsound : a.Sound) (hsteps : Steps rows)
    (hreaches : Reaches rows a.level) : At (o.run (a.tokens ++ a.between b)) (a :: rows) b := by
  obtain ⟨-, hlevel⟩ := hbelow
  rw [between]
  cases hb : b.isVerbatim with
  | true =>
    rw [if_pos rfl]
    cases ha : a.isVerbatim with
    | true =>
      rw [ha, hb] at hlevel
      exact at_newline h hsound hlevel (by simp [hb]) 1
    | false =>
      rw [ha, hb] at hlevel
      exact at_indent h hsound ha hlevel 1
  | false =>
    rw [if_neg Bool.false_ne_true]
    by_cases hdeeper : b.level = a.level + 1
    · rw [if_pos hdeeper]
      cases ha : a.isVerbatim with
      | true => rw [ha, hb] at hlevel; dsimp only at hlevel; omega
      | false => exact at_indent h hsound ha hdeeper 0
    · rw [if_neg hdeeper]
      rcases Nat.lt_or_ge b.level a.level with hless | hsame
      · exact at_dedent h hsound hsteps hreaches hless
      · cases ha : a.isVerbatim with
        | true => rw [ha, hb] at hlevel; dsimp only at hlevel; omega
        | false =>
          rw [ha, hb] at hlevel
          dsimp only at hlevel
          have hlevel : b.level = a.level := by omega
          have hclosing : a.closing b.level = [a.marker .newline b.level 0] := by
            simp [closing, hlevel]
          rw [hclosing]
          exact at_newline h hsound hlevel (fun _ => ha) 0

/-- The outline before each row of a layout is the one that its levels give. -/
theorem Laid.exists_at (h : Laid (before ++ row :: after)) :
    ∃ ts, allTokens (before ++ row :: after) = ts ++ (row.tokens ++ tokensAfter row after) ∧
      At (Outline.run {} ts) before.reverse row := by
  induction before using List.reverseRecOn generalizing row after with
  | nil =>
    refine ⟨[start], rfl, ?_⟩
    rw [run_cons, run_nil, read_begin start_is]
    exact ⟨rfl, rfl, fun _ _ hlast => nomatch hlast⟩
  | append_singleton before a ih =>
    rw [append_assoc, singleton_append] at h ⊢
    obtain ⟨ts, htokens, hat⟩ := ih h
    obtain ⟨hsteps, hreaches⟩ := h.steps
    have hbelow : Below a row := isChain_iff_forall_rel_of_append_cons_cons.mp h.chain rfl
    have hsound : a.Sound := h.sound a (mem_append_right _ mem_cons_self)
    refine ⟨ts ++ (a.tokens ++ a.between row), ?_, ?_⟩
    · rw [htokens, tokensAfter]
      simp only [append_assoc]
    · rw [Outline.run_append, reverse_append]
      exact hbelow.at hat hsound hsteps hreaches

end Row

/-! ## The first words of a line -/

namespace Row

def heads (row : Row) : List Text :=
  (row.tokens.dropWhile fun t => t.category = .attributeWord).map Token.text

def word? (row : Row) : Option Text := row.heads.head?

end Row

namespace Outline

theorem Placed.lead {o : Outline} (h : o.Placed (attributes ++ t :: ts)) (hline : o.line = [])
    (hattributes : ∀ u ∈ attributes, u.category = .attributeWord) (ht : t.IsCode) :
    ∃ sc o', Opened o' sc ∧ sc.Admits t.lexeme ∧ o'.above = o.above ∧ (attributes = [] → o' = o) := by
  have hplain : ∀ u ∈ attributes, u.isMarker = false := by
    intro u hu
    rw [← category_isLineMarker, hattributes u hu]
    rfl
  rw [placed_append, run_plain hplain, hline, nil_append] at h
  obtain ⟨sc, hopened, hadmits⟩ := h.2.1 ht hattributes
  refine ⟨sc, _, hopened, hadmits, rfl, fun hnil => ?_⟩
  rw [hnil, ← hline]

end Outline

/-- The words with which a line that opens a block with the tag starts, as far as clauses ask for
it. -/
def Tag.Heads : Tag → List Text → Prop
  | .forLoop, ws => ws.head? = some "for"
  | .whileLoop, ws => ws.head? = some "while"
  | .function, ws =>
    ∃ w ∈ (["function", "method", "procedure", "this"] : List Text), ws.head? = some w
  | .switchBlock, ws => ws.head? = some "switch"
  | .userType, ws => ∃ w ∈ (["class", "struct", "interface"] : List Text), ws.head? = some w
  | .template, ws =>
    ∃ w ∈ (["class", "struct", "interface"] : List Text), ∃ (name : Text) (rest : List Text),
      ws = w :: name :: "(" :: rest
  | .ifBlock, ws => ws.head? = some "if" ∨ ∃ rest : List Text, ws = ("else" : Text) :: ("if" : Text) :: rest
  | .tryBlock, ws => ws.head? = some "try"
  | .exceptBlock, ws => ws.head? = some "except"
  | _, _ => True

/-- A header begins with the words that its tag is known by. -/
theorem Header.heads (header : Header) (bare : Bool) (rest : List Text) :
    header.tag.Heads (header.words bare ++ rest) := by
  cases header with
  | elseIf condition => exact .inr ⟨_, rfl⟩
  | ifThen condition => exact .inl rfl
  | constructing parameters => exact ⟨"this", by simp, rfl⟩
  | function header => exact ⟨_, by cases header.word <;> simp [FunctionWord.text], rfl⟩
  | userType header =>
    have hword : header.word.text ∈ (["class", "struct", "interface"] : List Text) := by
      cases header.word <;> simp [UserType.text]
    rw [Header.tag]
    cases hparameters : header.parameters with
    | nil => exact ⟨_, hword, rfl⟩
    | cons name names =>
      refine ⟨_, hword, header.name, ?_⟩
      rw [Header.words, UserTypeHeader.words, UserTypeHeader.parameterWords, hparameters]
      exact ⟨_, rfl⟩
  | _ => first | exact rfl | trivial

theorem Header.exists_keyword (header : Header) (bare : Bool) (hne : ∀ word, header ≠ .attributes word) :
    ∃ (k : Keyword) (w : Text) (ws : List Text), header.words bare = w :: ws ∧ k.text? = some w := by
  cases header with
  | ifThen => exact ⟨.conditional .ifWord, _, _, rfl, rfl⟩
  | elseIf | otherwise => exact ⟨.conditional .elseWord, _, _, rfl, rfl⟩
  | whileLoop => exact ⟨.statement .whileWord, _, _, rfl, rfl⟩
  | forEach => exact ⟨.statement .forWord, _, _, rfl, rfl⟩
  | switchOn => exact ⟨.conditional .switchWord, _, _, rfl, rfl⟩
  | attempt => exact ⟨.exceptionWord .tryWord, _, _, rfl, rfl⟩
  | catching => exact ⟨.exceptionWord .exceptWord, _, _, rfl, rfl⟩
  | always => exact ⟨.exceptionWord .finallyWord, _, _, rfl, rfl⟩
  | unittest => exact ⟨.statement .unittestWord, _, _, rfl, rfl⟩
  | constructing => exact ⟨.constructorWord .thisWord, _, _, rfl, rfl⟩
  | function header => exact ⟨.functionWord header.word, _, _, rfl, rfl⟩
  | userType header => exact ⟨.userType header.word, _, _, rfl, rfl⟩
  | attributes word => exact absurd rfl (hne word)

variable {row : Row} {w : Text}

theorem Keyword.category_ne_attributeWord (h : k.text? = some w) : Category.ofText w ≠ .attributeWord := by
  intro hcategory
  rw [Category.ofText, Lexeme.ofText_text h, Lexeme.category_eq_attributeWord_iff] at hcategory
  cases hcategory
  cases h

/-- So does a row that opens a block. -/
theorem Row.heads_of_opens {tag : Tag} (h : Outline.Opens row.tokens tag) : tag.Heads row.heads := by
  generalize hline : row.tokens = line at h
  rw [Row.heads, hline]
  cases h with
  | label => trivial
  | @header attributes code comment header bare hattributes hcodes =>
    by_cases hheader : ∃ word, header = .attributes word
    · obtain ⟨word, rfl⟩ := hheader
      trivial
    rw [not_exists] at hheader
    obtain ⟨k, w, ws, hwords, hk⟩ := header.exists_keyword bare hheader
    have hcategory := Keyword.category_ne_attributeWord hk
    obtain ⟨htexts, hcode⟩ := hcodes
    rw [dropWhile_append_of_pos fun t ht => by simpa using hattributes t ht]
    cases code with
    | nil => rw [hwords] at htexts; cases htexts
    | cons t code =>
      have ht : t.text = w := by
        rw [hwords, map_cons, cons_append] at htexts
        exact (cons.inj htexts).1
      rw [← ht, ← category_eq (hcode t mem_cons_self).raw] at hcategory
      rw [cons_append, dropWhile_cons_of_neg (by simpa using hcategory), ← cons_append,
        map_append, htexts, append_assoc]
      exact header.heads bare _

/-- The first word behind the attributes is code, unless it is the sign of a comment. -/
theorem Row.exists_lead (hspelled : row.Spelled) (hv : row.isVerbatim = false) (hw : row.word? = some w)
    (hsign : Lexeme.ofText w ≠ .shape .punctuation) : ∃ attributes t ts, row.tokens = attributes ++ t :: ts ∧
      (∀ u ∈ attributes, u.category = .attributeWord) ∧ t.IsCode ∧ t.text = w := by
  obtain ⟨codes, cs, comment, htokens, hcodes, hcomment⟩ := hspelled.split hv
  rw [word?, heads, head?_map] at hw
  obtain ⟨t, ht, rfl⟩ := Option.map_eq_some_iff.mp hw
  obtain ⟨ts, hdrop⟩ := head?_eq_some_iff.mp ht
  refine ⟨row.tokens.takeWhile fun t => t.category = .attributeWord, t, ts, ?_, ?_, ?_, rfl⟩
  · rw [← hdrop]
    exact takeWhile_append_dropWhile.symm
  · intro u hu
    simpa using all_eq_true.mp all_takeWhile u hu
  · rw [htokens, dropWhile_append] at hdrop
    split at hdrop
    · -- All code is attributes, so the comment comes first.
      exfalso
      have hcomment' : ∀ u ∈ cs.head?, u.isCommentSign := by
        cases comment with
        | none => rw [LineComment.WrittenAfter] at hcomment; simp [hcomment]
        | some c =>
          obtain ⟨sign, us, rfl, hsign⟩ := LineComment.Written.head hcomment
          simpa using hsign
      cases cs with
      | nil => cases hdrop
      | cons sign us =>
        have hlexeme := lexeme_of_isCommentSign (hcomment' sign rfl)
        rw [dropWhile_cons_of_neg (by rw [Token.category, hlexeme]; decide)] at hdrop
        obtain ⟨rfl, -⟩ := cons.inj hdrop
        rw [lexeme_eq (raw_of_isCommentSign (hcomment' sign rfl))] at hlexeme
        exact hsign hlexeme
    · next hne =>
      cases hcodes' : codes.dropWhile fun t => t.category = .attributeWord with
      | nil => rw [hcodes'] at hne; simp at hne
      | cons u us =>
        rw [hcodes', cons_append] at hdrop
        obtain ⟨rfl, -⟩ := cons.inj hdrop
        have hmem : u ∈ codes.dropWhile fun t => t.category = .attributeWord := by
          rw [hcodes']
          exact mem_cons_self
        exact (hcodes u ((dropWhile_sublist _).subset hmem)).1

/-! ## Lines of an accepted source -/

/-- The rows of a source that are not raw are its rows of words. -/
theorem scan_wordRows (h : (scan unit source).outcome = .ok scanned) :
    ∃ rows, scanned.tokens = Row.allTokens rows ∧ Laid rows ∧ (∀ row ∈ rows, row.Spelled) ∧
      (rows.filter fun row => !row.isVerbatim) = source.wordRows scanned.unit := by
  have hindent := scan_unit h
  obtain ⟨s, hread, rfl⟩ := scan_ok_iff.mp h
  have hsound := Reading.sound_of_readLines hread
  refine ⟨s.rows.reverse, rfl, hsound.rows.laid, fun row hrow => ?_, ?_⟩
  · exact spelled_of_readLines hread row (mem_reverse.mp hrow)
  have hne : Stream.unitOr s.unit ≠ [] := by
    rw [Stream.unitOr]
    split
    · decide
    · next hs => exact fun hnil => hs (List.isEmpty_iff.mpr hnil)
  rw [Reading.readLines_wordRows hread Reading.unitOr_of_known hne fun hempty => ?_]
  · rfl
  · refine hindent.resolve_left fun hgiven => hne ?_
    exact hgiven.trans (List.isEmpty_iff.mp hempty)

/-- The first word behind the attributes of a line is admitted by scopes that were opened by the
lines above it. Without attributes a scope that it continues was opened by the line before. -/
theorem SourceHistory.Accepts.admits {h : History} (haccepts : Accepts unit source h)
    (hscan : (scan unit source).outcome = .ok scanned)
    (hrows : source.wordRows scanned.unit = before ++ row :: after) (htokens : row.tokens = attributes ++ t :: ts)
    (hattributes : ∀ u ∈ attributes, u.category = .attributeWord) (ht : t.IsCode) :
    ∃ (sc : Scopes Tag) (o : Outline), sc.Admits t.lexeme ∧ o.Opened sc ∧
      o.above = (ancestors before.reverse row.level).map Row.tokens ∧
      (attributes = [] → ∀ line ∈ o.last, ∃ r, before? before.reverse row.level = some r ∧
        r.level = row.level ∧ r.tokens = line) := by
  obtain ⟨rows, hall, hlaid, -, hfilter⟩ := scan_wordRows hscan
  -- Among all rows the verbatim ones come in between.
  rw [hrows, filter_eq_append_iff] at hfilter
  obtain ⟨rows₁, rows₂, rfl, hbefore, hrest⟩ := hfilter
  obtain ⟨skipped, rest, rfl, hskipped, hwords, -⟩ := filter_eq_cons_iff.mp hrest
  have hv : row.isVerbatim = false := by simpa using hwords
  have hfiltered : ((rows₁ ++ skipped).reverse.filter fun row => !row.isVerbatim) = before.reverse := by
    rw [filter_reverse, filter_append, hbefore, filter_eq_nil_iff.mpr hskipped, append_nil]
  rw [← append_assoc] at hall hlaid
  obtain ⟨us, hsplit, hat⟩ := hlaid.exists_at
  have hplaced := haccepts.placed hscan
  rw [hall, hsplit, placed_append, placed_append, htokens] at hplaced
  obtain ⟨sc, o, hopened, hadmits, habove, hnone⟩ := hplaced.2.1.lead hat.line hattributes ht
  refine ⟨sc, o, hadmits, hopened, ?_, fun hnil line hline => ?_⟩
  · rw [habove, hat.above, ← hfiltered, ancestors_filter]
  · rw [hnone hnil] at hline
    rw [← hfiltered, before?_filter]
    exact hat.last hv line hline

/-! ## The rules of context -/

theorem exists_of_contains {α : Type} {R : α → Tag → Prop} {as : List α} {sc : Scopes Tag}
    {wanted : List Tag} (h : Forall₂ R as sc.tags) (hcontains : sc.contains wanted) :
    ∃ a ∈ as, ∃ tag ∈ wanted, R a tag := by
  rw [Scopes.contains, any_eq_true] at hcontains
  obtain ⟨tag, htag, hwanted⟩ := hcontains
  generalize sc.tags = tags at h htag
  induction h with
  | nil => cases htag
  | cons hline _ ih =>
    rcases mem_cons.mp htag with rfl | htag
    · exact ⟨_, mem_cons_self, _, of_decide_eq_true hwanted, hline⟩
    · obtain ⟨line, hmem, hopens⟩ := ih htag
      exact ⟨line, mem_cons_of_mem _ hmem, hopens⟩

/-- What the rows above a row must be, the parent first, for its first word to stand where it does. -/
structure Row.InContext (row : Row) (above : List Row) : Prop where
  jump : row.word? = some "break" ∨ row.word? = some "continue" →
    ∃ a ∈ above, a.word? = some "for" ∨ a.word? = some "while"
  result : row.word? = some "return" →
    ∃ a ∈ above, ∃ w ∈ (["function", "method", "procedure", "this"] : List Text), a.word? = some w
  label : row.word? = some "case" ∨ row.word? = some "default" →
    ∃ parent ∈ above.head?, parent.word? = some "switch"
  method : row.word? = some "method" →
    ∃ a ∈ above, ∃ w ∈ (["class", "struct", "interface"] : List Text), a.word? = some w
  parameter : ∀ b, Text.isUpper b → row.word? = some [b] →
    ∃ a ∈ above, ∃ w ∈ (["class", "struct", "interface"] : List Text),
      ∃ (name : Text) (rest : List Text), a.heads = w :: name :: "(" :: rest

/-- What the line of code before a row must be for the row to continue its block. -/
structure Row.IsPaired (row : Row) (rows : List Row) : Prop where
  otherwise : (row.tokens.map Token.text).head? = some "else" →
    ∃ r, before? rows row.level = some r ∧ r.level = row.level ∧
      (r.word? = some "if" ∨ ∃ rest : List Text, r.heads = ("else" : Text) :: ("if" : Text) :: rest)
  handler : (row.tokens.map Token.text).head? = some "except" ∨
      (row.tokens.map Token.text).head? = some "finally" →
    ∃ r, before? rows row.level = some r ∧ r.level = row.level ∧
      (r.word? = some "try" ∨ r.word? = some "except")

section

variable {unit source : Text} {scanned : Scanned} {h : History} {before after : List Row} {row : Row}

theorem spelled_of_wordRows (hscan : (scan unit source).outcome = .ok scanned)
    (hrows : source.wordRows scanned.unit = before ++ row :: after) : row.Spelled ∧ row.isVerbatim = false := by
  obtain ⟨rows, -, -, hspelled, hfilter⟩ := scan_wordRows hscan
  have hmem : row ∈ rows.filter fun row => !row.isVerbatim := by
    rw [hfilter, hrows]
    exact mem_append_right _ mem_cons_self
  obtain ⟨hmem, hwords⟩ := mem_filter.mp hmem
  exact ⟨hspelled row hmem, by simpa using hwords⟩

/-- Above a line of an accepted source stand the lines that open its scopes. -/
theorem SourceHistory.Accepts.opens (haccepts : Accepts unit source h)
    (hscan : (scan unit source).outcome = .ok scanned)
    (hrows : source.wordRows scanned.unit = before ++ row :: after) (hw : row.word? = some w)
    (hl : Lexeme.ofText w = l) (hsign : l ≠ .shape .punctuation) : ∃ sc : Scopes Tag, sc.Admits l ∧
      Forall₂ (fun a tag => Outline.Opens (Row.tokens a) tag)
        (ancestors before.reverse row.level) sc.tags := by
  obtain ⟨hspelled, hv⟩ := spelled_of_wordRows hscan hrows
  obtain ⟨attributes, t, ts, htokens, hattributes, ht, rfl⟩ :=
    exists_lead hspelled hv hw (hl ▸ hsign)
  obtain ⟨sc, o, hadmits, hopened, habove, -⟩ :=
    haccepts.admits hscan hrows htokens hattributes ht
  rw [lexeme_eq ht.raw, hl] at hadmits
  refine ⟨sc, hadmits, ?_⟩
  have hopens := hopened.above
  rw [habove, forall₂_map_left_iff] at hopens
  exact hopens

/-- A word that needs a scope has a line above it that opens one. -/
theorem SourceHistory.Accepts.below (haccepts : Accepts unit source h) (wanted : List Tag)
    (hscan : (scan unit source).outcome = .ok scanned)
    (hrows : source.wordRows scanned.unit = before ++ row :: after) (hw : row.word? = some w)
    (hl : Lexeme.ofText w = l) (hsign : l ≠ .shape .punctuation)
    (hadmits : ∀ sc : Scopes Tag, sc.Admits l → sc.contains wanted) :
    ∃ a ∈ ancestors before.reverse row.level, ∃ tag ∈ wanted, Tag.Heads tag a.heads := by
  obtain ⟨sc, hsc, hopens⟩ := haccepts.opens hscan hrows hw hl hsign
  obtain ⟨a, ha, tag, htag, hopens⟩ := exists_of_contains hopens (hadmits sc hsc)
  exact ⟨a, ha, tag, htag, heads_of_opens hopens⟩

theorem ofText_of_isUpper {b : UInt8} (h : Text.isUpper b) : Lexeme.ofText [b] = .shape .templateType :=
  Lexeme.ofText_of_fits (by decide) (by simp [Shape.fits, Text.isTemplateType, h])

/-- A line of an accepted source that starts with the word, found by running the definitions. -/
theorem exists_line_of_run (source w : Text)
    (hrun : ((SourceHistory.run [] source).history.toOption.map fun h =>
      (h.stop?, (source.wordRows h.unit).any fun row => row.word? == some w)) = some (none, true)) :
    ∃ scanned h before row after, Accepts [] source h ∧ (scan [] source).outcome = .ok scanned ∧
      source.wordRows scanned.unit = before ++ row :: after ∧ word? row = some w := by
  obtain ⟨h, haccepts, hany⟩ := accepts_of_map hrun
  obtain ⟨scanned, hscan, rfl⟩ := history_eq haccepts.1
  obtain ⟨row, hrow, hword⟩ := any_eq_true.mp hany
  obtain ⟨before, after, hrows⟩ := append_of_mem hrow
  exact ⟨scanned, _, before, row, after, haccepts, hscan, hrows, eq_of_beq hword⟩

/-- Context is a matter of indentation: in a source that is accepted, jumps, results, labels,
methods and template types stand below lines that start with the words for it. -/
theorem lines_in_context (haccepts : SourceHistory.Accepts unit source h)
    (hscan : (scan unit source).outcome = .ok scanned)
    (hrows : source.wordRows scanned.unit = before ++ row :: after) :
    row.InContext (Row.ancestors before.reverse row.level) where
  jump := by
    intro hw
    have hbelow : ∃ a ∈ Row.ancestors before.reverse row.level,
        ∃ tag ∈ [Tag.forLoop, .whileLoop], tag.Heads a.heads := by
      rcases hw with hw | hw
      · exact haccepts.below _ hscan hrows hw
          (Lexeme.ofText_text (k := .statement .breakWord) rfl) nofun (fun _ hsc => hsc)
      · exact haccepts.below _ hscan hrows hw
          (Lexeme.ofText_text (k := .statement .continueWord) rfl) nofun (fun _ hsc => hsc)
    obtain ⟨a, ha, tag, htag, hheads⟩ := hbelow
    refine ⟨a, ha, ?_⟩
    simp only [mem_cons, not_mem_nil, or_false] at htag
    rcases htag with rfl | rfl
    · exact .inl hheads
    · exact .inr hheads
  result := by
    intro hw
    obtain ⟨a, ha, tag, htag, hheads⟩ := haccepts.below [.function] hscan hrows hw
      (Lexeme.ofText_text (k := .statement .returnWord) rfl) nofun (fun _ hsc => hsc)
    obtain rfl := mem_singleton.mp htag
    exact ⟨a, ha, hheads⟩
  label := by
    intro hw
    have htop : ∃ sc : Scopes Tag, sc.top? = some .switchBlock ∧
        Forall₂ (fun a tag => Outline.Opens (Row.tokens a) tag)
          (Row.ancestors before.reverse row.level) sc.tags := by
      rcases hw with hw | hw
      · exact haccepts.opens hscan hrows hw
          (Lexeme.ofText_text (k := .conditional .caseWord) rfl) nofun
      · exact haccepts.opens hscan hrows hw
          (Lexeme.ofText_text (k := .conditional .defaultWord) rfl) nofun
    obtain ⟨sc, htop, hopens⟩ := htop
    obtain ⟨tags, htags⟩ := head?_eq_some_iff.mp htop
    rw [htags] at hopens
    obtain ⟨parent, above, hparent, -, habove⟩ := forall₂_cons_right_iff.mp hopens
    rw [habove]
    exact ⟨parent, rfl, Row.heads_of_opens hparent⟩
  method := by
    intro hw
    obtain ⟨a, ha, tag, htag, hheads⟩ := haccepts.below [.userType, .template] hscan hrows hw
      (Lexeme.ofText_text (k := .functionWord .method) rfl) nofun (fun _ hsc => hsc)
    refine ⟨a, ha, ?_⟩
    simp only [mem_cons, not_mem_nil, or_false] at htag
    rcases htag with rfl | rfl
    · exact hheads
    · obtain ⟨w, hw, name, rest, hheads⟩ := hheads
      exact ⟨w, hw, by rw [Row.word?, hheads]; rfl⟩
  parameter := by
    intro b hb hw
    obtain ⟨a, ha, tag, htag, hheads⟩ := haccepts.below [.template] hscan hrows hw
      (ofText_of_isUpper hb) nofun (fun _ hsc => hsc)
    obtain rfl := mem_singleton.mp htag
    exact ⟨a, ha, hheads⟩

/-- A jump in a loop, behind a raw block that spells another loop. -/
theorem lines_in_context_break :
    ∃ (source : Text) (scanned : Scanned) (h : History) (before : List Row) (row : Row) (after : List Row),
      source = ("while a:\n  #\n    for\n  if b:\n    break\n" : String) ∧
      SourceHistory.Accepts [] source h ∧ (scan [] source).outcome = .ok scanned ∧
      source.wordRows scanned.unit = before ++ row :: after ∧ row.word? = some "break" ∧
      row.InContext (Row.ancestors before.reverse row.level) := by
  obtain ⟨scanned, h, before, row, after, haccepts, hscan, hrows, hword⟩ := exists_line_of_run
    ("while a:\n  #\n    for\n  if b:\n    break\n" : String) "break" (by decide +kernel)
  exact ⟨_, scanned, h, before, row, after, rfl, haccepts, hscan, hrows, hword, lines_in_context haccepts hscan hrows⟩

/-- A block that the first word of a line can continue was opened by the line of code before it. -/
theorem SourceHistory.Accepts.continues (haccepts : Accepts unit source h)
    (hscan : (scan unit source).outcome = .ok scanned) (hrows : source.wordRows scanned.unit = before ++ row :: after)
    (hw : (row.tokens.map Token.text).head? = some w) (hk : k.text? = some w) :
    ∃ sc : Scopes Tag, sc.Admits (.keyword k) ∧
      ∀ tag ∈ Tag.continued, sc.previous = some tag → ∃ r, before? before.reverse row.level = some r ∧
        r.level = row.level ∧ Outline.Opens r.tokens tag := by
  obtain ⟨hspelled, hv⟩ := spelled_of_wordRows hscan hrows
  rw [head?_map, Option.map_eq_some_iff] at hw
  obtain ⟨t, ht, rfl⟩ := hw
  obtain ⟨ts, htokens⟩ := head?_eq_some_iff.mp ht
  have hfirst : t.category ≠ .attributeWord := by
    cases hraw : t.raw with
    | true => simp [Token.category, lexeme, hraw, Lexeme.category]
    | false => rw [category_eq hraw]; exact Keyword.category_ne_attributeWord hk
  have hword : row.word? = some t.text := by
    rw [word?, Row.heads, htokens, dropWhile_cons_of_neg (by simpa using hfirst)]
    rfl
  obtain ⟨attributes, u, us, hsplit, hattributes, hu, htext⟩ :=
    exists_lead hspelled hv hword (by simp [Lexeme.ofText_text hk])
  obtain rfl : attributes = [] := by
    cases attributes with
    | nil => rfl
    | cons a attributes =>
      rw [htokens, cons_append] at hsplit
      exact absurd (hattributes a mem_cons_self) ((cons.inj hsplit).1 ▸ hfirst)
  obtain ⟨sc, o, hadmits, hopened, -, hlast⟩ := haccepts.admits hscan hrows hsplit hattributes hu
  rw [lexeme_eq hu.raw, htext, Lexeme.ofText_text hk] at hadmits
  refine ⟨sc, hadmits, fun tag htag hprevious => ?_⟩
  obtain ⟨-, line, hline, hopens⟩ := hopened.last tag htag hprevious
  obtain ⟨r, hr, hlevel, rfl⟩ := hlast rfl line hline
  exact ⟨r, hr, hlevel, hopens⟩

/-- Continuations are paired: in a source that is accepted, an `else` comes behind an `if` at its
level, and an `except` or `finally` behind a `try` or another `except`. -/
theorem continuations_paired (haccepts : SourceHistory.Accepts unit source h)
    (hscan : (scan unit source).outcome = .ok scanned)
    (hrows : source.wordRows scanned.unit = before ++ row :: after) : row.IsPaired before.reverse where
  otherwise := by
    intro hw
    obtain ⟨sc, hsc, hlast⟩ :=
      haccepts.continues (k := .conditional .elseWord) hscan hrows hw rfl
    obtain ⟨r, hr, hlevel, hopens⟩ := hlast .ifBlock (by decide) hsc
    exact ⟨r, hr, hlevel, Row.heads_of_opens hopens⟩
  handler := by
    intro hw
    have hprevious : ∃ sc : Scopes Tag,
        (sc.previous = some .tryBlock ∨ sc.previous = some .exceptBlock) ∧
        ∀ tag ∈ Tag.continued, sc.previous = some tag → ∃ r, Row.before? before.reverse row.level = some r ∧
          r.level = row.level ∧ Outline.Opens r.tokens tag := by
      rcases hw with hw | hw
      · exact haccepts.continues (k := .exceptionWord .exceptWord) hscan hrows hw rfl
      · exact haccepts.continues (k := .exceptionWord .finallyWord) hscan hrows hw rfl
    obtain ⟨sc, hsc, hlast⟩ := hprevious
    rcases hsc with hsc | hsc
    · obtain ⟨r, hr, hlevel, hopens⟩ := hlast .tryBlock (by decide) hsc
      exact ⟨r, hr, hlevel, .inl (Row.heads_of_opens hopens)⟩
    · obtain ⟨r, hr, hlevel, hopens⟩ := hlast .exceptBlock (by decide) hsc
      exact ⟨r, hr, hlevel, .inr (Row.heads_of_opens hopens)⟩

/-- An `else` behind a comment that is not indented. -/
theorem continuations_paired_else :
    ∃ (source : Text) (scanned : Scanned) (h : History) (before : List Row) (row : Row) (after : List Row),
      source = ("if a:\n  pass\n# otherwise\nelse:\n  pass\n" : String) ∧
      SourceHistory.Accepts [] source h ∧ (scan [] source).outcome = .ok scanned ∧
      source.wordRows scanned.unit = before ++ row :: after ∧ row.word? = some "else" ∧
      row.IsPaired before.reverse := by
  obtain ⟨scanned, h, before, row, after, haccepts, hscan, hrows, hword⟩ := exists_line_of_run
    ("if a:\n  pass\n# otherwise\nelse:\n  pass\n" : String) "else" (by decide +kernel)
  exact ⟨_, scanned, h, before, row, after, rfl, haccepts, hscan, hrows, hword,
    continuations_paired haccepts hscan hrows⟩

end

end Offside
