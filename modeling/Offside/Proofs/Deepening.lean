/-
Translating a source inside a block.

Below the line `while c:`, one unit deeper, an accepted source has the body it had with one more
unit before each line. So it is below any line that opens a loop or a function (`accepts_below`).
-/
import Offside.Proofs.Layout.Deepening
import Offside.Proofs.Lines

set_option autoImplicit false

namespace Offside

open List Text Token Reading Session Fragment SourceHistory Translate Clause

/-! ## The text one level deeper -/

variable {row : Row} {unit source : Text} {m t : Token} {c c' : Clause} {header : Header}
  {ts init deeper : List Token}

namespace Token

theorem neighbours_of_scan {scanned : Scanned} (hindent : unit.Leading)
    (h : (scan unit source).outcome = .ok scanned) : scanned.tokens.IsChain Neighbours := by
  have hadjacent := chain_of_scan h
  obtain ⟨s, hread, rfl⟩ := scan_ok_iff.mp h
  have hsound := sound_of_readLines hread
  have hopens := Row.opens_allTokens hsound.rows.laid.sound (fills_of_readLines hindent hread)
  rw [isChain_iff_forall_rel_of_append_cons_cons] at hadjacent hopens ⊢
  exact fun t u before after hsplit => ⟨hadjacent hsplit, hopens hsplit⟩

end Token

theorem Piece.render_lineBreak_one (u : Text) : (Piece.lineBreak 1).render u = Text.lineEnd :: u := by
  change Text.lineEnd :: repeated 1 u = _
  rw [repeated_succ]
  exact congrArg _ (append_nil u)

namespace Lined

variable {u x y : Text} {ts : List Token}

theorem exists_cons (h : Lined u ts x y) (hts : ∃ t ∈ ts.head?, t.isMarker = false) :
    ∃ b rest, x = b :: rest ∧ b ≠ Text.lineEnd := by
  obtain ⟨t, ht, hplain⟩ := hts
  have hno : ∀ {m : Marker}, t.is m.text → False := by
    intro m hm
    rw [isMarker_of_mark hm] at hplain
    cases hplain
  cases h with
  | nil => cases ht
  | start hm | closing hm => cases ht; exact (hno hm).elim
  | line hm => cases ht; exact (hm.elim hno hno).elim
  | text hrun =>
    obtain ⟨b, rest, rfl, -⟩ := hrun.starts
    refine ⟨b, _, cons_append, ?_⟩
    rintro rfl
    exact hrun.lineEnd mem_cons_self
  | raw rs hne hbefore hm hr hstart =>
    obtain ⟨b, hb, hne⟩ := hstart
    obtain ⟨rest, rfl⟩ := head?_eq_some_iff.mp hb
    exact ⟨b, _, cons_append, hne⟩

theorem atLineEnd (h : Lined u ts x y) (hchain : ts.IsChain Neighbours)
    (hbegin : ∀ t ∈ ts, t.is Marker.begin.text = false) (hts : ∀ t ∈ ts.head?, t.isMarker) : AtLineEnd x := by
  induction h with
  | nil => exact .inl rfl
  | start hm =>
    rw [hbegin _ mem_cons_self] at hm
    cases hm
  | line => exact .inr rfl
  | @closing m ts x y c tag hm hc h ih =>
    cases c with
    | block level => exact .inr rfl
    | caseBody needsBreak level =>
      cases needsBreak with
      | true => exact .inr rfl
      | false =>
        -- No text is written here, and another marker comes after a dedent.
        refine ih (isChain_cons.mp hchain).2 (forall_mem_cons.mp hbegin).2 fun t ht => ?_
        have hadjacent := (isChain_cons.mp hchain).1 t ht
        rw [hadjacent.marker (isMarker_of_mark hm), hm]
  | text hrun hplain =>
    obtain ⟨t, run, rfl⟩ := exists_cons_of_ne_nil hrun.nonempty
    have hmarker := hts t rfl
    rw [hplain t mem_cons_self] at hmarker
    cases hmarker
  | raw rs hne hbefore =>
    obtain ⟨t, before, rfl⟩ := exists_cons_of_ne_nil hne
    have hmarker := hts t rfl
    rw [(hbefore t mem_cons_self).1] at hmarker
    cases hmarker

theorem of_begin (h : Lined u (m :: ts) x y) (hm : m.is Marker.begin.text) : Lined u ts x y := by
  have hmarker : m.isMarker := isMarker_of_mark hm
  generalize hall : m :: ts = all at h
  cases h with
  | nil => cases hall
  | start _ h =>
    cases hall
    exact h
  | line hm' =>
    cases hall
    rcases hm' with hm' | hm' <;> cases marker_unique hm hm'
  | closing hm' =>
    cases hall
    cases marker_unique hm hm'
  | text hrun hplain =>
    obtain ⟨t, run, rfl⟩ := exists_cons_of_ne_nil hrun.nonempty
    cases hall
    rw [hplain m mem_cons_self] at hmarker
    cases hmarker
  | raw rs hne hbefore =>
    obtain ⟨t, before, rfl⟩ := exists_cons_of_ne_nil hne
    cases hall
    rw [(hbefore m mem_cons_self).1] at hmarker
    cases hmarker

/-- The end of a block moves with its level. -/
theorem shift_closing (hu : Text.lineEnd ∉ u) {c : Closing} {tag : Tag} (hc : c.Closes tag m) (hm : 0 ≤ m.level)
    (x : Text) : shift u false (c.fragment.render u ++ x) = (c.raise 1).fragment.render u ++ shift u false x := by
  have hline : ∀ {level : Int} {p : Text}, 0 ≤ level → Text.lineEnd ∉ p → p ≠ [] →
      shift u false ((Piece.lineBreak level).render u ++ (p ++ x)) =
        (Piece.lineBreak (level + 1)).render u ++ (p ++ shift u false x) := by
    intro level p hlevel hp hne
    obtain ⟨b, rest, rfl⟩ := exists_cons_of_ne_nil hne
    rw [← shift_append_of_line hp]
    exact shift_lineBreak hu hlevel (fun hb => hp (hb ▸ mem_cons_self)) _
  cases c with
  | block level =>
    have hlevel : 0 ≤ level := hc.2 ▸ hm
    simpa [Closing.fragment, Closing.raise, Piece.render] using
      hline (p := ("\x7d" : String)) hlevel (by decide) (by decide)
  | caseBody needsBreak level =>
    cases needsBreak with
    | true =>
      have hlevel : 0 ≤ level + 1 := Int.add_nonneg (hc.2 ▸ hm) Int.one_nonneg
      simpa [Closing.fragment, Closing.raise, Piece.render] using
        hline (p := ("break;" : String)) hlevel (by decide) (by decide)
    | false => rfl

/-- The text one level deeper is the text with a unit before each line that is not empty, and a unit
for the line that its last newline starts. -/
theorem shift_eq (h : Lined u ts x y) (hu : Text.lineEnd ∉ u) (hchain : ts.IsChain Neighbours)
    (hlevel : ∀ t ∈ ts, 0 ≤ t.level) (hbegin : ∀ t ∈ ts, t.is Marker.begin.text = false)
    (hlast : ∃ t ∈ ts.getLast?, t.is Marker.newline.text ∧ t.level = 0) : y = shift u false x ++ u := by
  induction h with
  | nil =>
    obtain ⟨t, ht, -⟩ := hlast
    cases ht
  | start hm =>
    rw [hbegin _ mem_cons_self] at hm
    cases hm
  | @line m ts x y hm h ih =>
    cases ts with
    | nil =>
      obtain ⟨_, ⟨⟩, -, hzero⟩ := hlast
      rw [getLast_singleton] at hzero
      obtain ⟨rfl, rfl⟩ := h.eq_nil
      rw [hzero, append_nil, append_nil]
      exact Piece.render_lineBreak_one u
    | cons t ts =>
      have hplain : t.isMarker = false := by
        rw [((isChain_cons_cons.mp hchain).1).marker
          (hm.elim isMarker_of_mark
            isMarker_of_mark), Bool.eq_false_iff]
        rcases hm with hm | hm <;> exact fun hdedent => nomatch marker_unique hm hdedent
      rw [getLast?_cons_cons] at hlast
      have hbelow := ih (isChain_cons.mp hchain).2 (forall_mem_cons.mp hlevel).2
        (forall_mem_cons.mp hbegin).2 hlast
      obtain ⟨b, rest, rfl, hb⟩ := h.exists_cons ⟨t, rfl, hplain⟩
      rw [shift_lineBreak hu (hlevel m mem_cons_self) hb, append_assoc, ← hbelow]
  | @closing m ts x y c tag hm hc h ih =>
    cases ts with
    | nil =>
      obtain ⟨_, ⟨⟩, hnewline, -⟩ := hlast
      cases marker_unique hm hnewline
    | cons t ts =>
      rw [getLast?_cons_cons] at hlast
      have hbelow := ih (isChain_cons.mp hchain).2 (forall_mem_cons.mp hlevel).2
        (forall_mem_cons.mp hbegin).2 hlast
      rw [shift_closing hu hc (hlevel m mem_cons_self), append_assoc, ← hbelow]
  | @text run ts p x y hrun hplain hts h ih =>
    obtain ⟨t, ht, hnewline, hzero⟩ := hlast
    cases ts with
    | nil =>
      rw [append_nil] at ht
      have hno := hplain t (mem_of_mem_getLast? ht)
      rw [isMarker_of_mark hnewline] at hno
      cases hno
    | cons v ts =>
      rw [getLast?_append_of_ne_nil _ (cons_ne_nil _ _)] at ht
      have hbelow := ih (isChain_append.mp hchain).2.1 (forall_mem_append.mp hlevel).2
        (forall_mem_append.mp hbegin).2 ⟨t, ht, hnewline, hzero⟩
      rw [shift_append_of_line hrun.lineEnd, append_assoc, ← hbelow]
  | @raw before ts m r p q x y rs hne hbefore hm hr hstart hpq hp hrs hts h ih =>
    have hsplit : before ++ m :: r :: (rs ++ ts) = (before ++ m :: r :: rs) ++ ts := by
      rw [append_assoc, cons_append, cons_append]
    rw [hsplit] at hchain hlevel hbegin hlast
    obtain ⟨t, ht, hnewline, hzero⟩ := hlast
    have hchain := (isChain_append.mp hchain).2.1
    have hbegin := (forall_mem_append.mp hbegin).2
    cases ts with
    | nil =>
      -- The block ends with a dedent.
      obtain ⟨d, hd, hdedent⟩ := hrs
      rw [append_nil, getLast?_append_of_ne_nil _ (cons_ne_nil _ _), getLast?_cons_cons, hd] at ht
      cases ht
      cases marker_unique hnewline hdedent
    | cons v ts =>
      rw [getLast?_append_of_ne_nil _ (cons_ne_nil _ _)] at ht
      have hbelow := ih hchain (forall_mem_append.mp hlevel).2 hbegin ⟨t, ht, hnewline, hzero⟩
      rw [hpq hu x (h.atLineEnd hchain hbegin hts), append_assoc, ← hbelow]

end Lined

/-- Where the last clause of a source would start a line one level deeper, there is the brace that
closes the block. -/
theorem Clause.Closed.render_eq (h : Closed 0 0 c c') (u : Text) :
    ∃ p, (c.raise 1).render u = p ++ Text.lineEnd :: u ∧ c'.render u = p ++ ("\n\x7d" : String) := by
  induction h with
  | newline =>
    refine ⟨[], ?_, rfl⟩
    rw [raise, Clause.render, Clause.fragment, render_cons]
    exact (append_nil _).trans (Piece.render_lineBreak_one u)
  | simple statement comment =>
    refine ⟨statement.code ++ LineComment.trailingCode comment, ?_, ?_⟩
    · simp only [raise, Ending.raise, Clause.render, Clause.fragment, Ending.fragment,
        cons_append, render_cons, render_append, LineComment.render_trailing,
        render_nil, append_nil, append_assoc, Int.zero_add,
        Piece.render_lineBreak_one]
      rfl
    · simp only [Clause.render, Clause.fragment, Ending.fragment, Closing.fragment, cons_append,
        render_cons, render_append, LineComment.render_trailing, append_assoc]
      rfl
  | attributed word h ih =>
    obtain ⟨p, hraised, hclosed⟩ := ih
    refine ⟨word ++ " " ++ p, ?_, ?_⟩
    · rw [raise, Clause.render, Clause.fragment, render_cons, append_assoc, ← hraised]
      rfl
    · rw [Clause.render, Clause.fragment, render_cons, append_assoc, ← hclosed]
      rfl

/-! ## The clauses in the block -/

def Header.surrounds (header : Header) : Prop :=
  header.tag = .forLoop ∨ header.tag = .whileLoop ∨ header.tag = .function

def Placement.below {header : Header} (hheader : header.surrounds) (last : Token)
    (hlast : last.is Marker.newline.text = true) (after : List Token) : Placement where
  rise := 1
  outer := [header.tag]
  closes t := decide (t = last)
  after := after
  helpers := []
  begun := false
  newline h := (of_decide_eq_true h) ▸ hlast
  around := forall_mem_singleton.mpr hheader
  nonempty _ := cons_ne_nil _ _

def Header.clauses (header : Header) : List Clause := [.start, .block header none 1]

/-- The line opens a block with this header and does nothing else. -/
structure Opening.Opens (o : Opening) (header : Header) : Prop where
  surrounds : header.surrounds
  translates : ∃ s, (ofTokens (Row.start :: o.tokens)).Translates header.clauses s ∧ s.stream.rest = [] ∧
    s.scopes.tags = [header.tag] ∧ s.generics = [] ∧ s.reader.helpers.used = []

theorem Opening.opens_loop : Opening.loop.Opens (.whileLoop (.single (.atom ("c" : String) []))) :=
  ⟨.inr (.inl rfl), _, .step rfl rfl (.step rfl rfl (.refl _)), rfl, rfl, rfl, rfl⟩

theorem Opening.opens_function :
    Opening.function.Opens (.function { word := .function, inClass := false, name := ("f" : String) }) :=
  ⟨.inr (.inr rfl), _, .step rfl rfl (.step rfl rfl (.refl _)), rfl, rfl, rfl, rfl⟩

namespace Session

theorem translates_opening {o : Opening} (h : o.Opens header) (after : List Token) :
    ∃ s, (ofTokens (Row.start :: o.tokens ++ after)).Translates header.clauses s ∧
      s.stream.rest = after ∧ s.scopes.tags = [header.tag] ∧ s.generics = [] ∧
      s.reader.helpers.used = [] := by
  obtain ⟨s, hs, hrest, htags, hgenerics, hhelpers⟩ := h.translates
  have hends : ∀ t ∈ (Row.start :: o.tokens).getLast?, t.isMarker := by
    intro t ht
    rw [Opening.tokens, ← cons_append, getLast?_concat] at ht
    cases ht
    rfl
  obtain ⟨t, ht, hfollows⟩ := hs.mirrored_elsewhere (follows_ofTokens after hends)
  refine ⟨t, ht, hfollows.reader.rest_eq hrest, ?_, ?_, ?_⟩
  · rw [hfollows.tags, htags]
    rfl
  · rw [hfollows.generics, hgenerics]
  · rw [hfollows.reader.helpers, hhelpers]
    rfl

theorem clause_newline {s : Session} (ht : t.is Marker.newline.text) : clause t s =
      .ok (.newline t.level) { s with trace := ⟨t, s.scopes.describe⟩ :: s.trace } := by
  have hrecord : recordDispatch t s
      = .ok s.trace.isEmpty { s with trace := ⟨t, s.scopes.describe⟩ :: s.trace } := rfl
  change clauseIn (s.remaining + 1) t s = _
  rw [clauseIn, lexeme_of_is_marker ht, bind_of_ok _ hrecord, (is_iff.mp ht).1]
  rfl

end Session

theorem Row.Deepens.ne_last (h : Row.Deepens ts deeper init row) (ht : t ∈ init) : t ≠ row.marker .newline 0 0 := by
  rintro rfl
  exact Int.lt_irrefl _ (h.other _ ht rfl)

/-- The tokens of a source, and those that stand for them in the block. A newline comes after them. -/
theorem Row.Deepens.same (hheader : header.surrounds) {us : List Token} (h : Row.Deepens ts deeper init row)
    (hus : us.map Token.unplaced = deeper.map Token.unplaced) :
    ∃ vs line, us = vs ++ [{ row.marker .newline 0 0 with line := line }] ∧
      Forall₂ (Placement.below hheader (row.marker .newline 0 0) rfl
        [{ row.marker .newline 0 0 with line := line }]).Same ts vs := by
  rw [h.deeper, map_append, map_eq_append_iff] at hus
  obtain ⟨vs, ws, rfl, hvs, hws⟩ := hus
  obtain ⟨d, ws, rfl, hd, hws⟩ := map_eq_cons_iff.mp hws
  obtain ⟨n, ws, rfl, hn, hws⟩ := map_eq_cons_iff.mp hws
  obtain rfl := map_eq_nil_iff.mp hws
  obtain ⟨line', rfl⟩ := unplaced_eq_iff.mp hd
  obtain ⟨line, rfl⟩ := unplaced_eq_iff.mp hn
  refine ⟨vs ++ [{ row.marker .dedent 0 0 with line := line' }], line, by simp, ?_⟩
  rw [h.tokens]
  have hraised := forall₂_of_unplaced hvs
  rw [forall₂_map_left_iff] at hraised
  refine rel_append ?_ (.cons (.closer line' (decide_eq_true rfl)) .nil)
  refine ((forall₂_and_left _ _).mpr ⟨fun t ht => h.ne_last ht, hraised⟩).imp ?_
  rintro t v ⟨hne, line'', rfl⟩
  exact .moved line'' (decide_eq_false hne)

namespace History

variable {unit : Text} {lines : Nat} {ts deeper init us : List Token} {row : Row} {o : Opening} {header : Header}

/-- Behind the header the source is read as on its own. -/
theorem seam_nested (hopens : o.Opens header) (hends : ∀ t ∈ (Row.start :: ts).getLast?, t.isMarker)
    (hdeepens : Row.Deepens ts deeper init row) (hus : us.map Token.unplaced = deeper.map Token.unplaced) :
    ∃ line s, (ofTokens (Row.start :: o.tokens ++ us)).Translates header.clauses s ∧ ∀ d,
      ({ (ofTokens (Row.start :: ts)).start Row.start ts with trace := [d] } : Session).Follows
        (.below hopens.surrounds (row.marker .newline 0 0) rfl [{ row.marker .newline 0 0 with line := line }]) s := by
  obtain ⟨vs, line, hsplit, hsame⟩ := hdeepens.same hopens.surrounds hus
  obtain ⟨s, hs, hrest, hstags, hsgenerics, hshelpers⟩ := translates_opening hopens us
  refine ⟨line, s, hs, fun d => follows_seam hends hsame (hrest.trans hsplit) hshelpers ?_ hstags hsgenerics⟩
  exact .inr ⟨init, _, hdeepens.tokens, decide_eq_true rfl, fun v hv => decide_eq_false (hdeepens.ne_last hv)⟩

theorem nested_begin (ts : List Token) (d : Dispatch) :
    ({ (ofTokens (Row.start :: ts)).start Row.start ts with trace := [d] } : Session).Nested 0 := by
  have hfirst : (ofTokens (Row.start :: ts)).stream.rest = Row.start :: ts := rfl
  have hbegin := ((nested_ofTokens _).clause hfirst (clause_begin Row.start_is rfl)).1
  exact ⟨hbegin.depth, hbegin.generics, hbegin.cases, hbegin.comment, hbegin.passthrough⟩

/-- Its clauses are those it has on its own, one level deeper, and the last closes the block. -/
theorem clauses_nested (hopens : o.Opens header) (hlaid : LaidOut lines (Row.start :: ts))
    (hends : ∀ t ∈ (Row.start :: ts).getLast?, t.isMarker)
    (hdeepens : Row.Deepens ts deeper init row) (hus : us.map Token.unplaced = deeper.map Token.unplaced)
    (hstop : (run unit (Row.start :: ts)).stop? = none)
    (hadmits : header.tag = .function → ∀ c ∈ (run unit (Row.start :: ts)).clauses, c.constructs = false) :
    ∃ ds c c', (run unit (Row.start :: ts)).clauses = .start :: (ds ++ [c]) ∧ Closed 0 0 c c' ∧
      (run unit (Row.start :: o.tokens ++ us)).stop? = none ∧
      (run unit (Row.start :: o.tokens ++ us)).clauses =
        header.clauses ++ (ds.map (raise 1) ++ [c'] ++ [.newline 0]) ∧
      (run unit (Row.start :: o.tokens ++ us)).helpers = (run unit (Row.start :: ts)).helpers := by
  obtain ⟨hend, htranslates⟩ := translates_of_stop? hstop
  obtain ⟨htags, hgenerics⟩ := closed_final hlaid hstop
  obtain ⟨clauses, d, hclauses, htranslates⟩ := htranslates.of_begin hend
  obtain ⟨line, s, hs, hseam⟩ := seam_nested hopens hends hdeepens hus
  -- The clauses of the source go through in the block, and the last one closes it.
  have hadmits' : ∀ c ∈ clauses, Placement.Admits
      (.below hopens.surrounds (row.marker .newline 0 0) rfl [{ row.marker .newline 0 0 with line := line }]) c := by
    intro c hc hmem
    exact hadmits (mem_singleton.mp hmem).symm c (by rw [hclauses]; exact mem_cons_of_mem _ hc)
  rcases htranslates.mirrored (hseam d) (.inr ⟨nested_begin ts d, hlaid.balance⟩) hadmits' with
    ⟨t, -, hfollows⟩ | ⟨ds, c, c', u, t, rfl, hu, hclosed, ht, hended⟩
  · rcases hfollows.last with hgoes | ⟨before, u, hrest, -⟩
    · cases (hgoes (row.marker .newline 0 0)).symm.trans (decide_eq_true rfl)
    · rw [hend] at hrest
      cases (append_ne_nil_of_right_ne_nil before (cons_ne_nil u [])) hrest.symm
  obtain rfl := of_decide_eq_true hu
  -- What is left is the newline after it.
  have htrest : t.stream.rest = [{ row.marker .newline 0 0 with line := line }] :=
    hended.reader.rest_eq hended.rest
  have hlast := Session.Translates.step htrest (clause_newline rfl) (.refl _)
  obtain ⟨hstopAll, hfinalAll, hclausesAll⟩ := run_of_translates unit (hs.append (ht.append hlast)) rfl
  refine ⟨ds, c, c', hclauses, hclosed, hstopAll, hclausesAll, ?_⟩
  rw [helpers, hfinalAll]
  exact hended.reader.helpers.trans (filter_true _)

/-- They are rendered as the body with one more unit before each line. -/
theorem body_nested (header : Header) (hu : Text.lineEnd ∉ unit) (hlaid : LaidOut lines (Row.start :: ts))
    (hproper : ∀ t ∈ Row.start :: ts, t.Proper) (hchain : (Row.start :: ts).IsChain Neighbours)
    (hlast : ∃ t ∈ ts.getLast?, t.is Marker.newline.text ∧ t.level = 0) {ds : List Clause}
    (hclosed : Closed 0 0 c c')
    (hwritten : AllWritten [] (.start :: (ds ++ [c])) (Row.start :: ts) []) :
    ((header.clauses ++ (ds.map (raise 1) ++ [c'] ++ [Clause.newline 0])).map
        (Clause.render unit)).flatten =
      header.code ++ (" \x7b\n" : String) ++
        shift unit true (((Clause.start :: (ds ++ [c])).map (Clause.render unit)).flatten) ++
        ("\x7d\n" : String) := by
  obtain ⟨last, hmem, hnewline, hzero⟩ := hlast
  have hends : ∀ t ∈ (Row.start :: ts).getLast?, t.isMarker := by
    intro t ht
    rw [mem_getLast?_cons hmem] at ht
    cases ht
    exact isMarker_of_mark hnewline
  have hlined := (hwritten.lined (u := unit) hproper hchain hends).of_begin Row.start_is
  have hbegin : ∀ t ∈ ts, t.is Marker.begin.text = false := by
    obtain ⟨_, _, ⟨⟩, -, hbegin⟩ := hlaid.first
    exact hbegin
  have hshift := hlined.shift_eq hu (isChain_cons.mp hchain).2
    (fun t ht => (hproper t (mem_cons_of_mem _ ht)).level) hbegin ⟨last, hmem, hnewline, hzero⟩
  -- The body starts with something, so its first line is moved too.
  obtain ⟨v, vs, rfl⟩ := exists_cons_of_ne_nil (ne_nil_of_mem (mem_of_mem_getLast? hmem))
  have hplain : v.isMarker = false := (isChain_cons_cons.mp hchain).1.marker rfl
  obtain ⟨b, rest, hbody, hb⟩ := hlined.exists_cons ⟨v, rfl, hplain⟩
  have hfresh : shift unit true (((Clause.start :: (ds ++ [c])).map (Clause.render unit)).flatten) =
      unit ++ shift unit false (((Clause.start :: (ds ++ [c])).map (Clause.render unit)).flatten) := by
    rw [hbody]
    exact shift_start hb rest
  obtain ⟨p, hraised, hrender⟩ := hclosed.render_eq unit
  have hbefore : (ds.map fun d => (d.raise 1).render unit).flatten ++ (p ++ [Text.lineEnd]) =
      shift unit false (((Clause.start :: (ds ++ [c])).map (Clause.render unit)).flatten) := by
    have hcancel : ((ds.map fun d => (d.raise 1).render unit).flatten ++ (p ++ [Text.lineEnd])) ++ unit =
        shift unit false (((Clause.start :: (ds ++ [c])).map (Clause.render unit)).flatten) ++ unit := by
      rw [← hshift, map_cons, flatten_cons, map_append, flatten_append,
        append_assoc, append_assoc]
      exact congrArg (_ ++ ·) ((append_nil _).trans hraised).symm
    exact append_cancel_right hcancel
  have hopening : (header.clauses.map (Clause.render unit)).flatten =
      header.code ++ (" \x7b\n" : String) ++ unit := by
    change header.code ++ (" \x7b" : Text) ++ ((Piece.lineBreak 1).render unit ++ []) ++ [] = _
    rw [Piece.render_lineBreak_one, append_nil, append_nil, append_assoc, append_assoc]
    rfl
  have hend : (([c'] ++ [Clause.newline 0]).map (Clause.render unit)).flatten =
      p ++ [Text.lineEnd] ++ ("\x7d\n" : String) := by
    change c'.render unit ++ [Text.lineEnd] = _
    rw [hrender, append_assoc, append_assoc]
    rfl
  rw [hfresh, ← hbefore, map_append, flatten_append, hopening, append_assoc (ds.map _),
    map_append, flatten_append, hend, map_map]
  simp only [append_assoc]
  rfl

end History

/-! ## Sources -/

theorem Text.shift_eq_mapLines (u t : Text) :
    shift u true t = t.mapLines fun line => if line.isEmpty then line else u ++ line := by
  induction t using induction_on_lines with
  | line p hp =>
    rw [mapLines_line hp]
    cases p with
    | nil => rfl
    | cons b p =>
      rw [mem_cons, not_or] at hp
      have hline := shift_append_of_line (u := u) (p := b :: p) (by simpa using hp) []
      rw [shift_start (Ne.symm hp.1)]
      simpa [shift] using hline
  | more p t hp ih =>
    rw [mapLines_more hp, ← ih]
    cases p with
    | nil => exact shift_lineEnd true t
    | cons b p =>
      rw [cons_append, shift_start (fun hb => hp (hb ▸ mem_cons_self)),
        ← cons_append, shift_append_of_line hp, shift_lineEnd, ← append_assoc]
      rfl

/-- Below a line that opens a loop or a function, one unit deeper, a source that is accepted and not
blank is accepted too. In a function it must not declare a constructor. -/
theorem accepts_below {o : Opening} {h : History} (hopens : o.Opens header) (hunit : unit ≠ [])
    (hindent : unit.Leading)
    (hfilled : ∃ line ∈ source.lines, (content line).isEmpty = false)
    (haccepts : Accepts unit source h)
    (hadmits : header.tag = .function → ∀ c ∈ h.clauses, c.constructs = false) :
    ∃ h', Accepts unit (o.above unit source) h' ∧ h'.helpers = h.helpers ∧
      h'.body = header.code ++ (" \x7b\n" : String) ++
        h.body.mapLines (fun line => if line.isEmpty then line else unit ++ line) ++ ("\x7d\n" : String) := by
  obtain ⟨_, hscan, -, hwritten⟩ := haccepts.written
  obtain ⟨hrun, hstop⟩ := haccepts
  obtain ⟨scanned, hscan', rfl⟩ := history_eq hrun
  obtain rfl := Except.ok.inj (hscan.symm.trans hscan')
  have hempty : unit.isEmpty = false := isEmpty_eq_false_iff.mpr hunit
  obtain ⟨hscanned, ts, deeper, init, row, us, htokens, hdeepens, hus, hnested⟩ :=
    scan_nested o hempty hindent hfilled hscan
  have hlaid := laidOut_of_scan hscan
  have hproper := proper_of_scan hscan
  have hchain := neighbours_of_scan hindent hscan
  have hends := (scan_ends hscan).2
  rw [hscanned] at hstop hwritten hadmits ⊢
  rw [htokens] at hlaid hproper hchain hends hwritten hstop hadmits ⊢
  obtain ⟨ds, c, c', hclauses, hclosed, hstop', hclauses', hhelpers⟩ :=
    History.clauses_nested hopens hlaid hends hdeepens hus hstop hadmits
  have hu : Text.lineEnd ∉ unit := fun hmem => nomatch hindent _ hmem
  have hlast : ∃ t ∈ ts.getLast?, t.is Marker.newline.text ∧ t.level = 0 :=
    ⟨row.marker .newline 0 0, by rw [hdeepens.tokens]; simp, rfl, rfl⟩
  have hbody : ∀ tokens, (History.run unit tokens).body
      = ((History.run unit tokens).clauses.map (Clause.render unit)).flatten := fun _ => rfl
  rw [hclauses] at hwritten
  refine ⟨History.run unit (Row.start :: o.tokens ++ us), ⟨?_, hstop'⟩, hhelpers, ?_⟩
  · rw [SourceHistory.run, hnested]
    rfl
  · rw [hbody, hbody, hclauses', hclauses, ← shift_eq_mapLines]
    exact History.body_nested header hu hlaid hproper hchain hlast hclosed hwritten

/-- Translating commutes with nesting. In the loop `while c:`, one unit deeper, a source that is
accepted and not blank is accepted too. It has the same helpers, and its body has one more unit
before each line that is not empty. -/
theorem accepts_nested {unit source : Text} {h : History} (hunit : unit ≠ [])
    (hindent : ∀ b ∈ unit, Text.isIndent b = true)
    (hfilled : ∃ line ∈ source.lines, (Reading.content line).isEmpty = false)
    (haccepts : SourceHistory.Accepts unit source h) :
    ∃ h', SourceHistory.Accepts unit (("while c:\n" : String) ++ Text.indented unit source) h' ∧
      h'.helpers = h.helpers ∧
      h'.body = ("while (c) \x7b\n" : String) ++
        h.body.mapLines (fun line => if line.isEmpty then line else unit ++ line) ++
        ("\x7d\n" : String) :=
  accepts_below Opening.opens_loop hunit hindent hfilled haccepts nofun

/-- A comment block with a blank line in it, below a condition. The blank line stays as it is. -/
theorem accepts_nested_comment : ∃ h, SourceHistory.Accepts ("  " : String)
        ("while c:\n  if a:\n    print b\n  #\n    one\n\n    two\n" : String) h ∧
      h.body = ("while (c) \x7b\n  if (a) \x7b\n    print(b);\n  \x7d\n  /*\n    one\n\n    two\n  */\n\x7d\n"
        : String) := by
  obtain ⟨h, haccepts, hbody⟩ := SourceHistory.accepts_of_run ("  " : String)
    ("if a:\n  print b\n#\n  one\n\n  two\n" : String)
    ("if (a) \x7b\n  print(b);\n\x7d\n/*\n  one\n\n  two\n*/\n" : String) (by decide +kernel)
  have hline : ∃ line ∈ (("if a:\n  print b\n#\n  one\n\n  two\n" : String) : Text).lines,
      (Reading.content line).isEmpty = false := by decide +kernel
  have hunit : (("  " : String) : Text) ≠ [] := cons_ne_nil _ _
  obtain ⟨h', haccepts', -, hbody'⟩ := accepts_nested hunit (all_eq_true.mp rfl) hline haccepts
  have hsource : (("while c:\n" : String) ++ Text.indented ("  " : String)
      ("if a:\n  print b\n#\n  one\n\n  two\n" : String) : Text) =
      ("while c:\n  if a:\n    print b\n  #\n    one\n\n    two\n" : String) := by decide +kernel
  rw [hsource] at haccepts'
  refine ⟨h', haccepts', ?_⟩
  rw [hbody', hbody]
  decide +kernel

end Offside
