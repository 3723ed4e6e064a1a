/-
Code that is passed through.

The lines of a raw block below `passthrough` stand in the body as they are, one unit less deep than
in the source, and blank lines stay empty.
-/
import Offside.Proofs.Deepening
import Offside.Proofs.Layout.Verbatim

set_option autoImplicit false

namespace Offside

open List Text Session SourceHistory Clause Layout Row

/-! ## The raw block -/

namespace Parse

variable {r : Reader} {lines : List Text} {ts rest : List Token}

/-- Raw lines are read off their tokens. -/
theorem rawLinesIn_of_written (h : RawWritten lines ts) (n : Nat) (hrest : r.stream.rest = ts ++ rest) :
    ∃ r', rawLinesIn (n + ts.length) r = .ok lines r' ∧ r'.stream.rest = rest ∧ r'.helpers = r.helpers := by
  induction h generalizing r with
  | @close t ht =>
    refine ⟨r.advance t rest, ?_, rfl, rfl⟩
    rw [length_singleton, rawLinesIn, bind_of_ok _ (next_eq _ hrest), (Token.is_iff.mp ht).1,
      if_neg Bool.false_ne_true, Token.is_eq_false_of_is ht (by decide), if_neg Bool.false_ne_true, ht, if_pos rfl]
    rfl
  | @line t lines ts ht h ih =>
    rw [cons_append] at hrest
    obtain ⟨r', hread, hrest'⟩ := ih (r := r.advance t (ts ++ rest)) rfl
    refine ⟨r', ?_, hrest'⟩
    rw [length_cons, ← Nat.add_assoc, rawLinesIn, bind_of_ok _ (next_eq _ hrest), ht, if_pos rfl,
      bind_of_ok _ hread]
    rfl
  | @newline t lines ts ht h ih =>
    obtain ⟨r', hread, hrest'⟩ := ih (r := r.advance t (ts ++ rest)) rfl
    refine ⟨r', ?_, hrest'⟩
    rw [length_cons, ← Nat.add_assoc, rawLinesIn, bind_of_ok _ (next_eq _ hrest), (Token.is_iff.mp ht).1,
      if_neg Bool.false_ne_true, ht, if_pos rfl]
    exact hread

end Parse

variable {line level : Nat} {row : Row} {rows loops : List Row}

namespace Translate

variable {s : Session} {t : Token} {lines : List Text} {ts rest : List Token}

theorem rawBlock_of_written (tag : Tag) (htag : tag.name.isEmpty = false) (h : RawWritten lines ts)
    (hrest : s.stream.rest = t :: (ts ++ rest)) :
    ∃ r, rawBlock tag s = .ok lines { s with reader := r, scopes := ⟨s.scopes.tags, some tag⟩ } ∧
      r.stream.rest = rest ∧ r.helpers = s.reader.helpers := by
  -- The budget is enough for all tokens ahead.
  obtain ⟨n, hn⟩ : ∃ n, 8 * ((ts ++ rest).length + 1) = n + ts.length :=
    ⟨_, (Nat.sub_add_cancel (by rw [length_append]; omega)).symm⟩
  obtain ⟨r, hread, hrest', hhelpers⟩ :=
    Parse.rawLinesIn_of_written (r := s.reader.advance t (ts ++ rest)) h n rfl
  rw [← hn] at hread
  exact ⟨r, rawBlock_of_ok htag (Parse.next_eq _ hrest) hread, hrest', hhelpers⟩

/-- A raw block is copied. -/
theorem copyFrom_of_written {deeper : Nat} {depth : Int} (level : Int) (h : RawWritten lines ts)
    (hrest : s.stream.rest = row.marker .indent deeper depth :: (ts ++ rest)) :
    ∃ s', copyFrom level s = .ok (.passthrough level lines) s' ∧ s'.stream.rest = rest ∧
      s'.scopes.tags = s.scopes.tags := by
  obtain ⟨r, hblock, hr, -⟩ := rawBlock_of_written .passthrough rfl h hrest
  have hsplit : copyFrom level s = (rawBlock .passthrough >>= fun lines =>
      setTerminated ((lines.getLast?.map endsInJump).getD false) >>= fun _ => pure (.passthrough level lines)) s := by
    rw [copyFrom, lift_atText_cons hrest, row.marker_is]
    rfl
  rw [hsplit, bind_of_ok _ hblock]
  exact ⟨_, rfl, hr, rfl⟩

end Translate

variable {lines : List Text} {words : List Word}

namespace Row

variable {level : Nat} {lines : List Text} {rows : List Row}

def passWords : List (List Word) :=
  [[⟨.name, "passthrough"⟩], [⟨.name, "passthrough"⟩, ⟨.symbol, ":"⟩]]

def ending (row : Row) (level : Nat) : List Token :=
  (List.range level).map (fun i => row.marker .dedent (level - 1 - i) 0) ++ [row.marker .newline 0 0]

theorem ending_succ (row : Row) (level : Nat) :
    row.ending (level + 1) = row.marker .dedent level 0 :: row.ending level := by
  have hshift : ∀ i, level + 1 - 1 - (i + 1) = level - 1 - i := fun i => by omega
  rw [ending, range_succ_eq_map, map_cons, map_map]
  simp only [Function.comp_def, Nat.succ_eq_add_one, hshift]
  rfl

/-- The tokens of a raw block from below one of its rows on, whatever rows come behind it. -/
theorem written_tokensAfter {a : Row} (ha : a.isVerbatim ∧ a.level = level + 1)
    (h : Forall₂ (Copies (level + 1)) lines rows) (after : List Row) :
    ∃ (ts : List Token) (last : Row), a.tokensAfter (rows ++ after) = ts ++ last.tokensAfter after ∧
      (last.isVerbatim ∧ last.level = level + 1) ∧ ∀ us, RawWritten [] us → RawWritten lines (ts ++ us) := by
  induction h generalizing a with
  | nil => exact ⟨[], a, rfl, ha, fun us hus => hus⟩
  | @cons text row lines rows hrow _ ih =>
    obtain ⟨line, rfl⟩ := hrow
    obtain ⟨ts, last, htokens, hlast, hwritten⟩ := ih (a := .verbatim line (level + 1) text) ⟨rfl, rfl⟩
    have hline : ∀ us, RawWritten [] us →
        RawWritten (text :: lines) ((verbatim line (level + 1) text).tokens ++ (ts ++ us)) := fun us hus =>
      RawWritten.line (t := ⟨text, line, (level + 1 : Nat), 1, true⟩) rfl (hwritten us hus)
    refine ⟨a.marker .newline (level + 1) 1 :: ((verbatim line (level + 1) text).tokens ++ ts), last, ?_, hlast,
      fun us hus => .newline (a.marker_is .newline (level + 1) 1) (hline us hus)⟩
    rw [cons_append, tokensAfter, htokens, between, ha.1, append_assoc]
    rfl

theorem opener_tokensAfter (words : List Word) (line : Nat) (hne : lines ≠ [])
    (h : Forall₂ (Copies (level + 1)) lines rows) (after : List Row) :
    ∃ (ts : List Token) (last : Row), (Row.words line level words).tokensAfter (rows ++ after) =
        (Row.words line level words).marker .indent (level + 1) 1 :: (ts ++ last.tokensAfter after) ∧
      (last.isVerbatim ∧ last.level = level + 1) ∧ ∀ us, RawWritten [] us → RawWritten lines (ts ++ us) := by
  cases h with
  | nil => exact absurd rfl hne
  | @cons text row lines rows hrow h =>
    obtain ⟨below, rfl⟩ := hrow
    obtain ⟨ts, last, htokens, hlast, hwritten⟩ :=
      written_tokensAfter (a := .verbatim below (level + 1) text) ⟨rfl, rfl⟩ h after
    refine ⟨(verbatim below (level + 1) text).tokens ++ ts, last, ?_, hlast, fun us hus =>
      RawWritten.line (t := ⟨text, below, (level + 1 : Nat), 1, true⟩) rfl (hwritten us hus)⟩
    rw [cons_append, tokensAfter, htokens, append_assoc]
    rfl

theorem opener_tokensAfter_end (hne : lines ≠ []) (h : Forall₂ (Copies (level + 1)) lines rows) :
    ∃ ts last, (Row.words line level words).tokensAfter rows =
      (Row.words line level words).marker .indent (level + 1) 1 :: (ts ++ ending last level) ∧
      RawWritten lines ts := by
  obtain ⟨ts, last, htokens, hlast, hwritten⟩ := opener_tokensAfter words line hne h []
  have hclosing : last.tokensAfter [] = last.ending last.level := rfl
  rw [append_nil, hclosing, hlast.2, ending_succ, append_cons] at htokens
  exact ⟨_, last, htokens, hwritten _ (.close (last.marker_is .dedent _ _))⟩

end Row

namespace Clause

def loopAt (level : Nat) : Clause :=
  .block (.whileLoop (.single (.atom ("c" : String) []))) none (level + 1 : Nat)

def closings (count : Nat) : List Clause :=
  (List.range count).reverse.map (fun level => .dedent (.block level)) ++ [.newline 0]

def copying (depth : Nat) (lines : List Text) : List Clause :=
  .start :: ((List.range' 0 depth).map loopAt ++ .passthrough depth lines :: closings depth)

end Clause

namespace Session

variable {s : Session} {rest : List Token} {row : Row}

theorem translates_loopRow (line level : Nat) (hrest : s.stream.rest = (Row.words line level loopWords).tokens ++
      ((Row.words line level loopWords).marker .indent (level + 1) 0 :: rest)) :
    ∃ s', s.Translates [.loopAt level] s' ∧ s'.stream.rest = rest ∧ s'.scopes.tags = .whileLoop :: s.scopes.tags := by
  rcases s with ⟨⟨⟨seen, _⟩, helpers⟩, scopes, generics, terminated, trace⟩
  obtain rfl := hrest
  exact ⟨_, .step rfl rfl (.refl _), rfl, rfl⟩

theorem translates_dedent (level : Nat) {tags : List Tag}
    (hrest : s.stream.rest = row.marker .dedent level 0 :: rest) (htags : s.scopes.tags = .whileLoop :: tags) :
    ∃ s', s.Translates [.dedent (.block level)] s' ∧ s'.stream.rest = rest ∧ s'.scopes.tags = tags := by
  rcases s with ⟨⟨⟨seen, _⟩, helpers⟩, ⟨_, previous⟩, generics, terminated, trace⟩
  obtain rfl := hrest
  obtain rfl := htags
  exact ⟨_, .step rfl rfl (.refl _), rfl, rfl⟩

/-- The opener and its block are one clause. -/
theorem translates_copied {ts : List Token} (hwords : words ∈ passWords) (h : RawWritten lines ts)
    (hrest : s.stream.rest = (Row.words line level words).tokens ++
      ((Row.words line level words).marker .indent (level + 1) 1 :: (ts ++ rest))) :
    ∃ s', s.Translates [.passthrough level lines] s' ∧ s'.stream.rest = rest ∧ s'.scopes.tags = s.scopes.tags := by
  rcases s with ⟨⟨⟨seen, _⟩, helpers⟩, ⟨tags, previous⟩, generics, terminated, trace⟩
  obtain rfl := hrest
  simp only [passWords, mem_cons, not_mem_nil, or_false] at hwords
  -- The session in which copying starts has read the opener, and the colon if there is one.
  rcases hwords with rfl | rfl
  · obtain ⟨s', hcopy, hrest', htags'⟩ := Translate.copyFrom_of_written
      (s := ⟨⟨⟨⟨("passthrough" : String), line, level, 0, false⟩ :: seen, _⟩, helpers⟩, ⟨tags, none⟩, generics, false,
        ⟨⟨("passthrough" : String), line, level, 0, false⟩, Scopes.describe ⟨tags, previous⟩⟩ :: trace⟩) level h rfl
    exact ⟨s', .step rfl hcopy (.refl _), hrest', htags'⟩
  · obtain ⟨s', hcopy, hrest', htags'⟩ := Translate.copyFrom_of_written
      (s := ⟨⟨⟨⟨(":" : String), line, level, 0, false⟩ :: ⟨("passthrough" : String), line, level, 0, false⟩ :: seen, _⟩,
        helpers⟩, ⟨tags, none⟩, generics, false,
        ⟨⟨("passthrough" : String), line, level, 0, false⟩, Scopes.describe ⟨tags, previous⟩⟩ :: trace⟩) level h rfl
    exact ⟨s', .step rfl hcopy (.refl _), hrest', htags'⟩

/-! ### Clause after clause -/

theorem translates_start (rows : List Row) :
    ∃ s, (ofTokens (allTokens rows)).Translates [.start] s ∧ s.stream.rest = (allTokens rows).tail ∧
      s.scopes.tags = [] := by
  obtain ⟨tokens, hrows⟩ : ∃ tokens, allTokens rows = Row.start :: tokens := by
    cases rows <;> exact ⟨_, rfl⟩
  rw [hrows]
  exact ⟨_, .step rfl rfl (.refl _), rfl, rfl⟩

/-- Each line of a loop is a clause, and leaves its scope open. -/
theorem translates_loops {count : Nat}
    (hloops : Forall₂ (Row.HasWords loopWords) (List.range' level count) loops)
    (hrow : row.isVerbatim = false ∧ row.level = level + count)
    (hs : s.stream.rest = (allTokens (loops ++ row :: rows)).tail) :
    ∃ s', s.Translates ((List.range' level count).map loopAt) s' ∧
      s'.stream.rest = row.tokens ++ row.tokensAfter rows ∧
      s'.scopes.tags = List.replicate count .whileLoop ++ s.scopes.tags := by
  induction count generalizing level loops s with
  | zero =>
    cases hloops
    exact ⟨s, .refl s, hs, rfl⟩
  | succ count ih =>
    rw [range'_succ] at hloops ⊢
    obtain ⟨_, loops, ⟨line, rfl⟩, hrest, rfl⟩ := forall₂_cons_left_iff.mp hloops
    -- The row below is another loop or the last row. It is one level deeper in both cases.
    obtain ⟨below, others, hbelow, hdeeper⟩ : ∃ below others, loops ++ row :: rows = below :: others ∧
        below.isVerbatim = false ∧ below.level = level + 1 := by
      rcases loops with _ | ⟨below, loops⟩
      · have hcount : count = 0 := by simpa using hrest.length_eq
        exact ⟨row, rows, rfl, hrow.1, by rw [hrow.2, hcount]⟩
      · obtain ⟨_, _, ⟨line, rfl⟩, -, hlevels⟩ := forall₂_cons_right_iff.mp hrest
        obtain ⟨rfl, -⟩ := range'_eq_cons_iff.mp hlevels
        exact ⟨_, _, rfl, rfl, rfl⟩
    have hbetween : (Row.words line level loopWords).between below =
        [(Row.words line level loopWords).marker .indent (level + 1) 0] := by
      rw [between, hdeeper.1, if_neg Bool.false_ne_true, hdeeper.2]
      exact if_pos rfl
    rw [cons_append, hbelow, allTokens, cons_append, tail_cons, tokensAfter, hbetween,
      append_assoc] at hs
    obtain ⟨s₁, hloop, hrest₁, htags₁⟩ := translates_loopRow line level hs
    have hs₁ : s₁.stream.rest = (allTokens (loops ++ row :: rows)).tail := by
      rw [hbelow]
      exact hrest₁
    obtain ⟨s', hloops', hrest', htags'⟩ := ih hrest ⟨hrow.1, by rw [hrow.2]; omega⟩ hs₁
    refine ⟨s', hloop.append hloops', hrest', ?_⟩
    rw [htags', htags₁, replicate_succ', append_assoc]
    rfl

/-- The dedents at the end close them all. -/
theorem translates_ending (count : Nat) (hrest : s.stream.rest = row.ending count)
    (htags : s.scopes.tags = List.replicate count .whileLoop) :
    ∃ s', s.Translates (closings count) s' ∧ s'.stream.rest = [] := by
  induction count generalizing s with
  | zero => exact ⟨_, .step hrest (clause_newline rfl) (.refl _), rfl⟩
  | succ count ih =>
    rw [ending_succ] at hrest
    obtain ⟨s₁, hdedent, hrest₁, htags₁⟩ := translates_dedent count hrest htags
    obtain ⟨s₂, hending, hrest₂⟩ := ih hrest₁ htags₁
    refine ⟨s₂, ?_, hrest₂⟩
    rw [closings, range_succ, reverse_append, reverse_singleton, singleton_append,
      map_cons, cons_append]
    exact hdedent.append hending

end Session

/-! ## The body -/

namespace Text

theorem flatMap_lineEnd (lines : List Text) : lines.flatMap (fun line => lineEnd :: line) ++ [lineEnd] =
      lineEnd :: lines.flatMap fun line => line ++ [lineEnd] := by
  induction lines with
  | nil => rfl
  | cons line lines ih =>
    rw [flatMap_cons, append_assoc, ih, flatMap_cons, append_assoc]
    rfl

theorem append_flatMap_lineEnd (line : Text) (lines : List Text) (rest : Text) :
    line ++ lines.flatMap (fun line => lineEnd :: line) ++ lineEnd :: rest =
      (line :: lines).flatMap (fun line => line ++ [lineEnd]) ++ rest := by
  rw [append_cons, append_assoc line, flatMap_lineEnd, flatMap_cons, append_cons line]

theorem join_append_lineEnd (hne : lines ≠ []) :
    join [lineEnd] lines ++ [lineEnd] = lines.flatMap fun line => line ++ [lineEnd] := by
  induction lines with
  | nil => exact absurd rfl hne
  | cons line lines ih =>
    rcases lines with _ | ⟨next, lines⟩
    · rw [join, intercalate_singleton, flatMap_singleton]
    · have hrest := ih (cons_ne_nil _ _)
      rw [join] at hrest ⊢
      rw [intercalate_cons_cons, append_assoc, hrest, flatMap_cons (x := line)]

end Text

namespace Layout

def rawBody (unit : Text) (depth : Nat) (lines : List Text) : List Text :=
  (List.range depth).map (fun level => lineAt unit (level, ("while (c) \x7b" : String))) ++
    (lines.map (copied unit depth) ++
      (List.range depth).reverse.map fun level => lineAt unit (level, ("\x7d" : String)))

end Layout

namespace Clause

variable {u line : Text}

theorem render_loopAt (u : Text) (level : Nat) :
    (loopAt level).render u = ("while (c) \x7b" : String) ++ lineEnd :: repeated (level + 1) u := by
  change (("while (c) \x7b" : String) : Text) ++ ((Piece.lineBreak (level + 1 : Nat)).render u ++ []) = _
  rw [append_nil]
  rfl

theorem render_dedent (u : Text) (level : Nat) :
    (Clause.dedent (.block level)).render u = lineEnd :: Layout.lineAt u (level, ("\x7d" : String)) := by
  change (Piece.lineBreak (level : Nat)).render u ++ ((("\x7d" : String) : Text) ++ []) = _
  rw [append_nil]
  rfl

theorem render_copiedLine (u : Text) (level : Nat) (line : Text) :
    Fragment.render u (copiedLine level line .verbatim) = lineEnd :: copied u level line := by
  rcases line with _ | ⟨b, line⟩
  · rfl
  · change (Piece.lineBreak (level : Nat)).render u ++ ((b :: line) ++ []) = _
    rw [append_nil]
    rfl

theorem render_loops (u : Text) (level count : Nat) :
    repeated level u ++ (((List.range' level count).map loopAt).map (render u)).flatten =
      ((List.range' level count).map fun level => Layout.lineAt u (level, ("while (c) \x7b" : String))).flatMap
        (fun line => line ++ [lineEnd]) ++ repeated (level + count) u := by
  induction count generalizing level with
  | zero => exact append_nil _
  | succ count ih =>
    have hrest := ih (level + 1)
    rw [Nat.add_right_comm, Nat.add_assoc] at hrest
    rw [range'_succ, map_cons, map_cons, flatten_cons, map_cons, flatMap_cons,
      append_assoc _ _ (repeated _ _), ← hrest, render_loopAt, Layout.lineAt]
    simp only [append_assoc, cons_append, nil_append]

theorem render_passthrough (level : Nat) (hline : line ≠ []) (lines : List Text) :
    repeated level u ++ (Clause.passthrough level (line :: lines)).render u =
      copied u level line ++ (lines.map (copied u level)).flatMap fun line => lineEnd :: line := by
  have hlines : Fragment.render u (lines.flatMap fun line => copiedLine level line .verbatim) =
      (lines.map (copied u level)).flatMap fun line => lineEnd :: line := by
    rw [Fragment.render, flatMap_assoc, flatMap_map]
    exact congrArg lines.flatMap (funext fun line => render_copiedLine u level line)
  rw [copied_of_ne_nil hline, Layout.lineAt, ← hlines, append_assoc]
  rfl

/-- What closes the loops is one brace a line. -/
theorem render_closings (u : Text) (count : Nat) : ((closings count).map (render u)).flatten = lineEnd ::
      ((List.range count).reverse.map fun level => Layout.lineAt u (level, ("\x7d" : String))).flatMap
        fun line => line ++ [lineEnd] := by
  rw [← flatMap_lineEnd, closings, map_append, flatten_append, map_map, ← flatMap_def,
    flatMap_map]
  exact congrArg (fun f => (List.range count).reverse.flatMap f ++ [lineEnd])
    (funext fun level => render_dedent u level)

/-- All clauses together are the lines of the body. -/
theorem render_copying (u : Text) (depth : Nat) (hline : line ≠ []) (lines : List Text) :
    ((copying depth (line :: lines)).map (render u)).flatten =
      join [lineEnd] (rawBody u depth (line :: lines)) ++ [lineEnd] := by
  have hloops := render_loops u 0 depth
  have hblock := render_passthrough (u := u) depth hline lines
  rw [Nat.zero_add] at hloops
  calc ((copying depth (line :: lines)).map (render u)).flatten
    _ = repeated 0 u ++ (((List.range' 0 depth).map loopAt).map (render u)).flatten ++
          ((Clause.passthrough depth (line :: lines)).render u ++ ((closings depth).map (render u)).flatten) := by
        rw [copying, map_cons, map_append, map_cons, flatten_cons, flatten_append,
          flatten_cons, append_assoc]
        rfl
    _ = join [lineEnd] (rawBody u depth (line :: lines)) ++ [lineEnd] := by
        rw [hloops, append_assoc, ← append_assoc (repeated depth u), hblock, render_closings,
          append_flatMap_lineEnd, join_append_lineEnd (by simp [rawBody]), rawBody,
          flatMap_append, flatMap_append, range_eq_range']
        rfl

end Clause

/-! ## From source to body -/

/-- The tokens of the rows are translated to these clauses. -/
theorem Session.translates_copying {depth : Nat}
    (hloops : Forall₂ (Row.HasWords loopWords) (List.range depth) loops) (hwords : words ∈ passWords)
    (hrow : Row.HasWords words depth row) (hne : lines ≠ [])
    (hrows : Forall₂ (Copies (depth + 1)) lines rows) :
    ∃ s, (ofTokens (allTokens (loops ++ row :: rows))).Translates (copying depth lines) s ∧
      s.stream.rest = [] := by
  obtain ⟨line, rfl⟩ := hrow
  obtain ⟨ts, last, htokens, hwritten⟩ := opener_tokensAfter_end hne hrows
  rw [range_eq_range'] at hloops
  have hopener : (Row.words line depth words).isVerbatim = false ∧ (Row.words line depth words).level = 0 + depth :=
    ⟨rfl, (Nat.zero_add depth).symm⟩
  obtain ⟨s₁, h₁, hrest₁, htags₁⟩ := translates_start (loops ++ Row.words line depth words :: rows)
  obtain ⟨s₂, h₂, hrest₂, htags₂⟩ := translates_loops hloops hopener hrest₁
  rw [htokens] at hrest₂
  obtain ⟨s₃, h₃, hrest₃, htags₃⟩ := translates_copied hwords hwritten hrest₂
  obtain ⟨s₄, h₄, hrest₄⟩ := translates_ending depth hrest₃ (by rw [htags₃, htags₂, htags₁, append_nil])
  exact ⟨s₄, h₁.append (h₂.append (h₃.append h₄)), hrest₄⟩

theorem Layout.exists_opener {opener : Text}
    (hopener : opener = ("passthrough" : String) ∨ opener = ("passthrough:" : String)) :
    ∃ words ∈ passWords, Opener opener words := by
  rcases hopener with rfl | rfl
  · exact ⟨_, .head _, ⟨by decide +kernel, by decide +kernel, by decide +kernel, by decide +kernel⟩⟩
  · exact ⟨_, .tail _ (.head _), ⟨by decide +kernel, by decide +kernel, by decide +kernel, by decide +kernel⟩⟩

/-- Code is passed through as it is. A source with `depth` loops one in the other and a raw block in
the last one is accepted, and the lines of the block are in the body with nothing changed but the
indentation they start with, which is one unit less than in the source. -/
theorem passthrough_verbatim {u opener ending : Text} {lines : List Text} (depth : Nat) (hu : u ≠ [])
    (hindent : ∀ b ∈ u, Text.isIndent b = true)
    (hopener : opener = ("passthrough" : String) ∨ opener = ("passthrough:" : String))
    (hending : ending = [] ∨ ending = [Text.lineEnd]) (hne : lines ≠ [])
    (hlines : ∀ line ∈ lines, Layout.Copyable line) (hfirst : ∀ line ∈ lines.head?, line ≠ [])
    (hlast : ∀ line ∈ lines.getLast?, line ≠ []) :
    ∃ h, SourceHistory.Accepts u (Text.join [Text.lineEnd] (Layout.rawSource u depth opener lines) ++ ending) h ∧
      h.body = Text.join [Text.lineEnd] (Layout.rawBody u depth lines) ++ [Text.lineEnd] := by
  obtain ⟨words, hwords, hopens⟩ := Layout.exists_opener hopener
  obtain ⟨loops, row, rows, hscan, hloops, hrow, hrows⟩ :=
    scan_rawSource depth (isEmpty_eq_false_iff.mpr hu) hindent hopens hlines hfirst hlast hending
  obtain ⟨s, htranslates, hrest⟩ := Session.translates_copying hloops hwords hrow hne hrows
  obtain ⟨hstop, -, hclauses⟩ :=
    Session.history_of_translates u (Session.nested_ofTokens _) (Nat.lt_succ_self _) htranslates hrest
  refine ⟨_, ⟨SourceHistory.history_of_scan hscan, hstop⟩, ?_⟩
  -- The body is that of the clauses, and these are known.
  obtain ⟨line, lines, rfl⟩ := exists_cons_of_ne_nil hne
  refine (congrArg (fun cs => (cs.map (Clause.render u)).flatten) hclauses).trans ?_
  exact Clause.render_copying u depth (hfirst line rfl) lines

/-- Lines that spell a marker, a comment and an opener, an empty line, and white space of the lines'
own. -/
theorem passthrough_verbatim_spellings :
    let lines : List Text := [("<indent>" : String), ("  // # a" : String), [], ("\tpassthrough:" : String)]
    let source : Text := ("while c:\n  while c:\n    passthrough\n" ++
      "      <indent>\n        // # a\n\n      \tpassthrough:\n" : String)
    let body : Text := ("while (c) \x7b\n  while (c) \x7b\n" ++
      "    <indent>\n      // # a\n\n    \tpassthrough:\n  \x7d\n\x7d\n" : String)
    (∀ line ∈ lines, Layout.Copyable line) ∧ ∃ h, SourceHistory.Accepts ("  " : String) source h ∧ h.body = body := by
  intro lines source body
  have hlines : ∀ line ∈ lines, Layout.Copyable line := by
    have hall : ∀ line ∈ lines, Text.lineEnd ∉ line ∧ ∀ b ∈ line.getLast?, Text.isGap b = false := by decide +kernel
    exact fun line hline => ⟨(hall line hline).1, (hall line hline).2⟩
  have hspaces : ∀ b ∈ (("  " : String) : Text), Text.isIndent b = true := all_eq_true.mp rfl
  have hsource : Text.join [Text.lineEnd] (Layout.rawSource ("  " : String) 2 ("passthrough" : String) lines) ++
      [Text.lineEnd] = source := by decide +kernel
  have hbody : Text.join [Text.lineEnd] (Layout.rawBody ("  " : String) 2 lines) ++ [Text.lineEnd] = body := by
    decide +kernel
  refine ⟨hlines, ?_⟩
  rw [← hsource, ← hbody]
  exact passthrough_verbatim 2 (by decide +kernel) hspaces (.inl rfl) (.inr rfl) (cons_ne_nil _ _) hlines
    (by decide +kernel) (by decide +kernel)

end Offside
