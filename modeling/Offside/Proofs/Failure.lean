/-
Errors point at the source.

The rows of a source are whole lines from the first one on, and each clause leaves lines again
(`Lines`). So every token that is rejected stands on a row of words or is the marker at its end.
-/
import Offside.Diagnostic
import Offside.Proofs.Accepted
import Offside.Proofs.Layout.Refusal
import Offside.Proofs.Translate.Blame

set_option autoImplicit false

namespace Offside

open List Token SourceHistory Reading Session WordRule

/-! ## Lines that can be shown -/

variable {unit source : Text}

namespace Text

/-- Line `n` of the source can be shown, and something is on it that is no space, tab or carriage
return. -/
structure ShowsLine (source : Text) (n : Int) : Prop where
  pos : 1 ≤ n
  le : n ≤ source.lines.length
  text : ∃ text, source.sourceLine? n = some text ∧ ∃ b ∈ text, isGap b = false

theorem mem_trimEnd {p : UInt8 → Bool} {t : Text} {b : UInt8} (hb : b ∈ t) (hp : p b = false) : b ∈ trimEnd p t := by
  rw [trimEnd, mem_reverse]
  have hmem : b ∈ t.reverse := mem_reverse.mpr hb
  rw [← takeWhile_append_dropWhile (p := p) (l := t.reverse), mem_append] at hmem
  refine hmem.resolve_left fun htake => ?_
  rw [mem_takeWhile_imp htake] at hp
  cases hp

theorem showsLine {line : Text} {number : Nat} (hpos : 1 ≤ number) (hline : source.lines[number - 1]? = some line)
    (hcontent : (content line).isEmpty = false) : source.ShowsLine number where
  pos := by omega
  le := by
    obtain ⟨hlt, -⟩ := List.getElem?_eq_some_iff.mp hline
    omega
  text := by
    obtain ⟨b, hb, hgap⟩ : ∃ b ∈ line, isGap b = false := by
      by_contra hall
      have hblank : ∀ b ∈ line, isGap b := fun b hb => by
        by_contra hb'
        exact hall ⟨b, hb, by rwa [Bool.not_eq_true] at hb'⟩
      rw [Reading.content_isEmpty_iff.mpr hblank] at hcontent
      cases hcontent
    have hindent : isIndent b = false := by
      rw [isGap, Bool.or_eq_false_iff] at hgap
      exact hgap.1
    refine ⟨trimEnd isIndent line, ?_, b, mem_trimEnd hb hindent, hgap⟩
    rw [sourceLine?, if_neg (by omega), Int.toNat_natCast, hline]
    rfl

end Text

/-! ## Lines that cannot be scanned -/

/-- A line that cannot be scanned can be shown. -/
theorem showsLine_of_scan {e : ScanError} (h : (scan unit source).outcome = .error e) : source.ShowsLine e.line := by
  rw [scan] at h
  rcases hread : (readLines 1 source.lines).run { unit := unit } with ⟨_, s⟩ | ⟨e', s⟩
  · rw [hread] at h
    cases h
  · rw [hread] at h
    cases h
    obtain ⟨m, line, hpos, hline, he, hcontent⟩ := readLines_error [] rfl rfl hread
    rw [he]
    exact Text.showsLine hpos hline hcontent

/-! ## Tokens that can be shown -/

variable {w : Word} {e : ParseError} {P : Token → Prop}

namespace Word

theorem respaced_append {first : Text} (h : ∀ b ∈ first, (!Text.isIndent b)) (rest : Text) :
    ∃ rest', respaced (first ++ rest) = first ++ rest' := by
  rw [respaced, takeWhile_append_of_pos h, append_assoc, append_assoc]
  exact ⟨_, rfl⟩

theorem IsCut.comparator (h : w.IsCut) (hrule : w.rule = .comparator) :
    ∃ first rest, (∃ second, (first, second) ∈ comparatorWords) ∧ w.text = first ++ rest := by
  obtain ⟨b, t, n, hfirst, htext⟩ := h
  obtain ⟨rfl, hpos⟩ := first?_spec hfirst
  rw [hrule] at htext hpos
  obtain ⟨first, second, gap, hmem, -, -, htake⟩ := take_comparator hpos
  exact ⟨first, gap ++ second, ⟨second, hmem⟩, htext.trans htake⟩

/-- No token of a word reads as the end of the input. -/
theorem IsCut.text_ne_end (h : w.IsCut) {line level : Nat} {t : Token} (ht : t ∈ w.tokens line level)
    (hraw : t.raw = false) : t.text ≠ ("end of input" : Text) := by
  by_cases hcomment : w.rule = .comment
  · rw [text_of_comment hcomment ht hraw]
    rcases commentSign_cases w.text with hsign | hsign <;> rw [hsign] <;> decide
  obtain ⟨hgap, text, htext, rfl⟩ := eq_of_mem_tokens hcomment ht
  change text ≠ _
  by_cases hrule : w.rule = .comparator
  · -- Either way the text starts with the first of the two words, and the phrase with no such word.
    obtain ⟨first, rest, hmem, hw⟩ := h.comparator hrule
    have hall : ∀ pair ∈ comparatorWords, pair.1 ≠ ("end of input" : Text).take pair.1.length := by
      decide +kernel
    obtain ⟨second, hmem⟩ := hmem
    have hne := hall _ hmem
    have hindent : ∀ b ∈ first, (!Text.isIndent b) := by
      simpa using (comparatorWords_spec hmem).1
    obtain ⟨rest', htext⟩ : ∃ rest', text = first ++ rest' := by
      rcases htext with rfl | ⟨-, rfl⟩
      · exact ⟨rest, hw⟩
      · rw [hw]
        exact respaced_append hindent rest
    intro hend
    rw [← hend, htext, take_left] at hne
    exact hne rfl
  · have hforms : ∀ rule : WordRule, rule ≠ .gap → rule ≠ .comment → rule ≠ .comparator →
        rule.forms ("end of input" : Text) = false := by
      intro rule
      cases rule <;> decide
    obtain rfl : text = w.text := htext.resolve_right fun hresp => hrule hresp.1
    intro hend
    have hform := h.forms
    rw [hend, hforms _ hgap hcomment hrule] at hform
    cases hform

end Word

/-- A token that an error can show: it is one of the source after the start, with text of its own,
on a line that can be shown. -/
structure Token.Shown (source : Text) (tokens : List Token) (t : Token) : Prop where
  mem : t ∈ tokens
  raw : t.raw = false
  start : t.is Marker.begin.text = false
  text : t.text ≠ ("end of input" : Text)
  line : source.ShowsLine t.line

/-! ## Rows are lines -/

namespace Row

variable {P : Token → Prop} {T us : List Token} {a b : Row} {rows : List Row} {level : Nat}

theorem lines_dedents {ds : List Token} (hds : ∀ d ∈ ds, d.is Marker.dedent.text)
    (h : Lines P level us) : Lines P (level + ds.length) (ds ++ us) := by
  induction ds with
  | nil => exact h
  | cons d ds ih =>
    obtain ⟨hd, hds⟩ := forall_mem_cons.mp hds
    exact .dedent hd (ih hds)

theorem lines_closing (hle : level ≤ a.level) (hnext : ∀ u ∈ us.head?, u.isMarker = false)
    (h : Lines P level us) : Lines P a.level (a.closing level ++ us) := by
  have hnewline : Lines P level (a.marker .newline level 0 :: us) := .newline (a.marker_is ..) hnext h
  have hdedents := lines_dedents (a.is_dedent_of_mem_dedents level) hnewline
  rw [length_dedents, Nat.add_sub_cancel' hle] at hdedents
  rw [closing_eq_dedents, append_assoc]
  exact hdedents

/-- What follows row `a`: lines, after the rest of a raw block if the row is in one. -/
def Resumed (P : Token → Prop) (a : Row) (ts : List Token) : Prop :=
  if a.isVerbatim then
    ∃ inner d rest, ts = inner ++ d :: rest ∧
      (∀ v ∈ inner, v.raw ∨ v.is Marker.newline.text) ∧
      d.is Marker.dedent.text ∧ Lines P (a.level - 1) rest
  else Lines P a.level ts

theorem resumed_closing (hle : level ≤ a.level) (hraw : a.isVerbatim → level < a.level)
    (hnext : ∀ u ∈ us.head?, u.isMarker = false) (h : Lines P level us) : Resumed P a (a.closing level ++ us) := by
  have hlines := lines_closing hle hnext h
  unfold Resumed
  by_cases hv : a.isVerbatim
  · rw [if_pos hv]
    -- The first of the dedents ends the raw block.
    have hne : a.dedents level ≠ [] := by
      have hlt := hraw hv
      rw [← length_pos_iff, length_dedents]
      omega
    obtain ⟨d, ds, hds⟩ := exists_cons_of_ne_nil hne
    have hdedent := a.is_dedent_of_mem_dedents level d (by rw [hds]; exact mem_cons_self)
    rw [closing_eq_dedents, hds] at hlines ⊢
    obtain ⟨m, hm, hrest⟩ := hlines.of_dedent hdedent
    rw [hm, Nat.add_sub_cancel]
    exact ⟨[], d, _, rfl, fun _ hv => absurd hv not_mem_nil, hdedent, hrest⟩
  · rw [if_neg hv]
    exact hlines

/-- The tokens between two rows leave whole lines ahead. -/
theorem resumed_between (hbelow : Below a b) (hb : b.Sound) (hP : a.isVerbatim = false → ∀ t ∈ a.between b, P t)
    (hwords : b.isVerbatim = false → Lines P b.level (b.tokens ++ us))
    (hraw : b.isVerbatim → Resumed P b us) : Resumed P a (a.between b ++ (b.tokens ++ us)) := by
  obtain ⟨-, hlevel⟩ := hbelow
  cases hvb : b.isVerbatim with
  | false =>
    have hlines := hwords hvb
    obtain ⟨t, ts, htokens, ht⟩ := hb.start hvb
    have hplain : t.isMarker = false := hb.plain t (by rw [htokens]; exact mem_cons_self)
    have hnext : ∀ u ∈ (b.tokens ++ us).head?, u.isMarker = false := by
      rw [htokens]
      rintro _ ⟨⟩
      exact hplain
    cases hva : a.isVerbatim with
    | false =>
      rw [hva, hvb] at hlevel
      -- Words below words open one level, or close all levels between them.
      by_cases hdeeper : b.level = a.level + 1
      · have hbetween : a.between b = [a.marker .indent b.level 0] := by
          rw [between, hvb, if_neg Bool.false_ne_true, if_pos hdeeper]
        have hindent := hP hva (a.marker .indent b.level 0) (by rw [hbetween]; exact mem_singleton_self _)
        rw [Resumed, hva, if_neg Bool.false_ne_true, hbetween]
        rw [hdeeper, htokens] at hlines
        rw [htokens]
        exact .block (a.marker_is ..) hindent hplain ht hlines
      · rw [between, hvb, if_neg Bool.false_ne_true, if_neg hdeeper]
        refine resumed_closing (by change b.level ≤ a.level + 1 at hlevel; omega) (fun hv => ?_) hnext hlines
        rw [hva] at hv
        cases hv
    | true =>
      rw [hva, hvb] at hlevel
      change b.level < a.level at hlevel
      rw [between, hvb, if_neg Bool.false_ne_true, if_neg (by omega)]
      exact resumed_closing (by omega) (fun _ => hlevel) hnext hlines
  | true =>
    obtain ⟨number, n, text, rfl⟩ : ∃ number n text, b = .verbatim number n text := by
      cases b with
      | words => cases hvb
      | verbatim number n text => exact ⟨number, n, text, rfl⟩
    -- A raw row opens its block below words, and goes on with it below another raw row.
    have hblock := hraw rfl
    rw [Resumed, if_pos hvb] at hblock
    obtain ⟨inner, d, rest, rfl, hinner, hd, hlines⟩ := hblock
    rw [between, if_pos hvb]
    cases hva : a.isVerbatim with
    | false =>
      rw [hva] at hlevel
      have hindent := hP hva (a.marker .indent n 1) (by
        rw [between, if_pos hvb, hva]
        exact mem_singleton_self _)
      rw [Resumed, hva, if_neg Bool.false_ne_true, if_neg Bool.false_ne_true]
      change n = a.level + 1 at hlevel
      subst hlevel
      exact .rawBlock (a.marker_is ..) hindent rfl hinner hd hlines
    | true =>
      rw [hva] at hlevel
      change n = a.level at hlevel
      subst hlevel
      rw [Resumed, if_pos hva, if_pos rfl]
      refine ⟨a.marker .newline a.level 1 :: _ :: inner, d, rest, rfl, ?_, hd, hlines⟩
      refine forall_mem_cons.mpr ⟨.inr (a.marker_is ..), forall_mem_cons.mpr ⟨.inl rfl, hinner⟩⟩

theorem tokensAfter_eq_append (a : Row) (hsound : ∀ row ∈ rows, row.Sound) :
    ∃ ms rest, tokensAfter a rows = ms ++ rest ∧ EndsLine ms ∧ (∀ m ∈ ms, m.line = a.line) ∧
      ∀ u ∈ rest.head?, u.raw → ∃ b ∈ rows.head?, b.isVerbatim := by
  cases rows with
  | nil =>
    refine ⟨a.closing 0, [], by rw [append_nil]; rfl, endsLine_closing a 0, ?_, fun _ hu => nomatch hu⟩
    exact fun m hm => (mem_closing hm).1
  | cons b rows =>
    refine ⟨a.between b, b.tokens ++ tokensAfter b rows, by rw [tokensAfter, append_assoc],
      endsLine_between a b, fun m hm => (mem_between hm).1, fun u hu hraw => ⟨b, rfl, ?_⟩⟩
    have hhead := (hsound b mem_cons_self).head?_raw (tokensAfter b rows)
    rw [hu, Option.map_some, Option.getD_some, hraw] at hhead
    exact hhead.symm

/-- Rows as the scanner lays them out, of whose tokens among `T` the property holds as far as they
are to be shown. -/
structure Legible (P : Token → Prop) (T : List Token) (rows : List Row) : Prop where
  chain : rows.IsChain Below
  heads : rows.IsChain Heads
  sound : ∀ row ∈ rows, row.Sound
  spelled : ∀ row ∈ rows, row.Spelled
  shown : ∀ row ∈ rows, row.isVerbatim = false → ∀ t ∈ T, t.raw = false → t.line = row.line → P t

theorem Legible.tail (h : Legible P T (a :: rows)) : Legible P T rows where
  chain := h.chain.tail
  heads := h.heads.tail
  sound := fun row hrow => h.sound row (mem_cons_of_mem _ hrow)
  spelled := fun row hrow => h.spelled row (mem_cons_of_mem _ hrow)
  shown := fun row hrow => h.shown row (mem_cons_of_mem _ hrow)

theorem Legible.lines_row (h : Legible P T (a :: rows)) (hT : ∀ t ∈ a.tokens ++ tokensAfter a rows, t ∈ T)
    (hwords : a.isVerbatim = false) (hlines : Lines P a.level (tokensAfter a rows)) :
    Lines P a.level (a.tokens ++ tokensAfter a rows) := by
  have hsound := h.sound a mem_cons_self
  have hshown := h.shown a mem_cons_self hwords
  obtain ⟨t, ts, htokens, ht⟩ := hsound.start hwords
  obtain ⟨ms, rest, hafter, hends, hline, hrest⟩ := tokensAfter_eq_append a h.tail.sound
  obtain ⟨last, hlast, -⟩ := hends.last
  obtain ⟨m, ms, rfl⟩ := exists_cons_of_ne_nil (ne_nil_of_mem (mem_of_mem_getLast? hlast))
  have hmarker := hends.marker m mem_cons_self
  have hm : m ∈ tokensAfter a rows := by rw [hafter]; exact mem_cons_self
  -- What stands behind the first marker is another one, or the first token of the next row.
  have hopens : ∀ u ∈ (ms ++ rest).head?, u.raw → t.opensRaw := by
    intro u hu hraw
    rcases ms with _ | ⟨v, ms⟩
    · obtain ⟨b, hb, hvb⟩ := hrest u hu hraw
      rcases rows with _ | ⟨c, rows⟩
      · cases hb
      obtain rfl := Option.some.inj hb
      obtain ⟨v, vs, hv, hopens⟩ := (isChain_cons_cons.mp h.heads).1 hwords hvb
      obtain ⟨rfl, -⟩ := cons.inj (htokens.symm.trans hv)
      exact hopens
    · obtain rfl := Option.some.inj hu
      have hmarker' := hends.marker v (by simp)
      rw [raw_of_isMarker hmarker'] at hraw
      cases hraw
  rw [hafter] at hlines ⊢
  exact Lines.line
    { words := a.tokens
      mark := m
      below := ms ++ rest
      plain := hsound.plain
      chain := (h.spelled a mem_cons_self).chain
      shown := fun u hu hraw => hshown u (hT u (mem_append_left _ hu)) hraw (mem_tokens hu).2.1
      isMarker := hmarker
      markShown := hshown m (hT m (mem_append_right _ hm)) (raw_of_isMarker hmarker)
        (hline m mem_cons_self) } htokens ht hopens hlines

/-- So do all rows that are left, by induction on them. -/
theorem Legible.resumed (h : Legible P T (a :: rows)) (hT : ∀ t ∈ a.tokens ++ tokensAfter a rows, t ∈ T)
    (hlevel : a.isVerbatim → 0 < a.level) : Resumed P a (tokensAfter a rows) := by
  induction rows generalizing a with
  | nil =>
    have hclosing : Resumed P a (a.closing 0 ++ []) :=
      resumed_closing (Nat.zero_le _) hlevel (fun _ hu => nomatch hu) .done
    rw [append_nil] at hclosing
    exact hclosing
  | cons b rows ih =>
    have hbelow : Below a b := (isChain_cons_cons.mp h.chain).1
    have hsub : ∀ t ∈ b.tokens ++ tokensAfter b rows, t ∈ T := by
      intro t ht
      refine hT t (mem_append_right _ ?_)
      rw [tokensAfter, append_assoc]
      exact mem_append_right _ ht
    have hresumed := ih h.tail hsub (hbelow.pos_level hlevel)
    rw [tokensAfter, append_assoc]
    refine resumed_between hbelow (h.sound b (by simp)) ?_ ?_ fun _ => hresumed
    · intro hva t ht
      have hmem : t ∈ tokensAfter a (b :: rows) := by
        rw [tokensAfter, append_assoc]
        exact mem_append_left _ ht
      refine h.shown a mem_cons_self hva t (hT t (mem_append_right _ hmem)) ?_ (mem_between ht).1
      exact raw_of_isMarker ((endsLine_between a b).marker t ht)
    · intro hvb
      rw [Resumed, hvb, if_neg Bool.false_ne_true] at hresumed
      exact h.tail.lines_row hsub hvb hresumed

end Row

/-! ## Tokens of a source -/

section

variable {unit source : Text} {scanned : Scanned} {rows : List Row} {row : Row} {t : Token}

theorem Row.showsLine (hsound : row.Sound) (hrow : Reading.RowOf source.lines row)
    (hwords : row.isVerbatim = false) (hpos : 1 ≤ row.line) : source.ShowsLine row.line := by
  obtain ⟨t, ts, htokens, -⟩ := hsound.start hwords
  cases row with
  | verbatim => cases hwords
  | words number level words =>
    obtain ⟨line, hline, hcut⟩ := hrow number level words rfl
    refine Text.showsLine hpos hline ?_
    rw [isEmpty_eq_false_iff]
    intro hempty
    -- A blank line has no words, and so no tokens.
    rw [hempty] at hcut
    cases hcut
    cases htokens

theorem Row.text_ne_end (hrow : Reading.RowOf source.lines row) (ht : t ∈ row.tokens)
    (hraw : t.raw = false) : t.text ≠ ("end of input" : Text) := by
  cases row with
  | verbatim =>
    rw [mem_singleton.mp ht] at hraw
    cases hraw
  | words number level words =>
    obtain ⟨line, -, hcut⟩ := hrow number level words rfl
    obtain ⟨w, hw, ht⟩ := mem_flatMap.mp ht
    exact ((Word.cut_spec hcut).2 w hw).text_ne_end ht hraw

theorem Token.text_ne_end_of_isMarker (h : t.isMarker) : t.text ≠ ("end of input" : Text) := by
  obtain ⟨m, hm⟩ := isMarker_iff.mp h
  rw [(is_iff.mp hm).2]
  cases m <;> decide

/-- The tokens of a source behind the marker of the start are lines, and errors about them can be
shown. -/
theorem lines_of_scan (h : (scan unit source).outcome = .ok scanned) : ∃ rest, scanned.tokens = Row.start :: rest ∧
      Lines (Shown source scanned.tokens) 0 rest := by
  have hlaidOut := laidOut_of_scan h
  obtain ⟨s, hread, rfl⟩ := scan_ok_iff.mp h
  have hstacked := (sound_of_readLines hread).rows
  have hlaid := hstacked.laid
  have hheads := headed_of_readLines hread
  have hrows : ∀ row ∈ s.rows.reverse, Reading.RowOf source.lines row ∧ row.Spelled := fun row hrow =>
    ⟨hstacked.source row (mem_reverse.mp hrow), spelled_of_readLines hread row (mem_reverse.mp hrow)⟩
  revert hlaidOut hlaid hheads hrows
  generalize s.rows.reverse = rows
  intro hlaidOut hlaid hheads hrows
  rcases rows with _ | ⟨a, rows⟩
  · exact ⟨[], rfl, .done⟩
  refine ⟨a.tokens ++ Row.tokensAfter a rows, rfl, ?_⟩
  obtain ⟨first, ts, hfirst, -, hbegin⟩ := hlaidOut.first
  obtain ⟨rfl, rfl⟩ := cons.inj hfirst
  have hlegible : Row.Legible (Shown source (Row.allTokens (a :: rows)))
      (a.tokens ++ Row.tokensAfter a rows) (a :: rows) :=
    { chain := hlaid.chain
      heads := hheads
      sound := hlaid.sound
      spelled := fun row hrow => (hrows row hrow).2
      shown := by
        intro row hrow hwords t ht hraw hline
        have hmem : t ∈ Row.allTokens (a :: rows) := mem_cons_of_mem _ ht
        refine ⟨hmem, hraw, hbegin t ht, ?_, ?_⟩
        · rcases Row.mem_allTokens hmem with hmarker | ⟨r, hr, ht⟩
          · exact text_ne_end_of_isMarker hmarker
          · exact Row.text_ne_end (hrows r hr).1 ht hraw
        · have hpos := (hlaidOut.line t hmem).1
          rw [hline] at hpos ⊢
          exact Row.showsLine (hlaid.sound row hrow) (hrows row hrow).1 hwords (by omega) }
  -- The first row has words at level 0, so no block is open before it.
  obtain ⟨hwords, hzero, -⟩ := hlaid.first a rfl
  have hresumed := hlegible.resumed (fun t ht => ht) (fun hv => by rw [hwords] at hv; cases hv)
  rw [Row.Resumed, hwords, if_neg Bool.false_ne_true] at hresumed
  have hlines := hlegible.lines_row (fun t ht => ht) hwords hresumed
  rw [hzero] at hlines
  exact hlines

end

/-! ## Steps and runs -/

/-- Step after step the session goes on with lines, until it rejects one of their tokens. -/
theorem Session.Resumes.concerns {s : Session} {n : Nat} (unit : Text) (hnested : s.Nested 0) (h : s.Resumes P)
    (hstop : (s.history unit n).stop? = some (.rejected e)) : e.Concerns P := by
  induction n generalizing s with
  | zero => cases hstop
  | succ n ih =>
    rcases hrest : s.stream.rest with _ | ⟨t, rest⟩
    · unfold Session.history History.stop? at hstop
      rw [sequence_none (Session.next?_nil hrest)] at hstop
      cases hstop
    have hreturns := Translate.clause_returns hrest h (Rewording.sparesAhead_none false s)
    rcases hclause : Translate.clause t (s.start t rest) with ⟨c, s'⟩ | ⟨stop, s'⟩
    · rw [(history_ok unit n (next?_ok hnested hrest hclause)).1] at hstop
      obtain ⟨-, -, -, hresumes⟩ := hreturns.result c s' hclause
      exact ih (hnested.clause hrest hclause).1 hresumes hstop
    · have hnext : Step.next? .forward s = some ⟨t, .error stop, s'⟩ := by
        rw [Session.next?_cons hrest, hclause]
      unfold Session.history History.stop? at hstop
      rw [sequence_error hnext] at hstop
      obtain rfl := Option.some.inj hstop
      exact (hreturns.stop _ s' hclause).2 e rfl

/-- A run over whole lines rejects nothing but their tokens. -/
theorem History.concerns_of_stop {rest : List Token} (h : Lines P 0 rest)
    (hstop : (run unit (Row.start :: rest)).stop? = some (.rejected e)) : e.Concerns P := by
  have hfirst : (ofTokens (Row.start :: rest)).stream.rest = Row.start :: rest := rfl
  have hnested := nested_ofTokens (Row.start :: rest)
  have hclause := clause_begin (s := (ofTokens (Row.start :: rest)).start Row.start rest)
    Row.start_is rfl
  rw [history_ofTokens, (history_ok unit _ (next?_ok hnested hfirst hclause)).1] at hstop
  exact Session.Resumes.concerns unit (hnested.clause hfirst hclause).1 h hstop

/-! ## Sources -/

def SourceError.line : SourceError → Int
  | scan e => e.line
  | parse e => e.line

/-- A source with an error is not accepted. -/
theorem SourceHistory.not_accepts {f : SourceError} (h : (run unit source).error? = some f) (t : History) :
    ¬ Accepts unit source t := by
  rintro ⟨hhistory, hstop⟩
  rw [error?, hhistory] at h
  dsimp only at h
  rw [hstop] at h
  cases h

/-- A source that is not accepted is rejected with an error that points at one of its lines, which
is not blank. A token that the translator rejects is neither the marker of the start nor raw, and
the errors for inputs that are no source do not occur. -/
theorem rejected_at_source {unit source : Text} (hrejected : ∀ h, ¬ SourceHistory.Accepts unit source h) :
    ∃ f, (SourceHistory.run unit source).error? = some f ∧ source.ShowsLine f.line ∧ ∀ e, f = .parse e →
        (∀ wanted line, e.text ≠ (ParseError.endOfInput wanted line).text) ∧
        e.reason ≠ ("dedent with no open block" : Text) ∧
        ∃ scanned, (scan unit source).outcome = .ok scanned ∧
          ∃ t ∈ scanned.tokens, e.Blames t ∧ t.raw = false ∧ t.is Marker.begin.text = false := by
  rcases hscan : (scan unit source).outcome with e | scanned
  · refine ⟨.scan e, ?_, showsLine_of_scan hscan, fun _ he => nomatch he⟩
    rw [SourceHistory.error?, SourceHistory.run, hscan]
    rfl
  have hhistory : (SourceHistory.run unit source).history = .ok (History.run scanned.unit scanned.tokens) := by
    rw [SourceHistory.run, hscan]
    rfl
  obtain ⟨e, hstop⟩ : ∃ e, (History.run scanned.unit scanned.tokens).stop? = some (.rejected e) := by
    rcases History.ends_run scanned.unit scanned.tokens with hstop | ⟨hnone, -⟩
    · exact hstop
    · exact absurd ⟨hhistory, hnone⟩ (hrejected _)
  obtain ⟨rest, htokens, hlines⟩ := lines_of_scan hscan
  have hconcerns : e.Concerns (Token.Shown source scanned.tokens) := by
    rw [htokens] at hstop
    exact History.concerns_of_stop hlines hstop
  obtain ⟨⟨t, ht, hblames⟩, hreason⟩ := hconcerns
  refine ⟨.parse e, ?_, ?_, ?_⟩
  · rw [SourceHistory.error?, hhistory]
    dsimp only
    rw [hstop]
  · have hline := ht.line
    rw [← hblames.line] at hline
    exact hline
  · rintro _ ⟨⟩
    refine ⟨fun wanted line hend => ?_, hreason, scanned, rfl, t, ht.mem, hblames, ht.raw, ht.start⟩
    exact ht.text (hblames.text.symm.trans hend)

/-- The colon is missing on the last line. Above it a raw block spells the marker of the start. -/
theorem rejected_at_source_raw_block :
    ∃ f, (SourceHistory.run [] ("passthrough\n  <begin>\n\nif a\n" : String)).error? = some f ∧
      f.line = 4 ∧ Text.ShowsLine ("passthrough\n  <begin>\n\nif a\n" : String) f.line := by
  have hline : (SourceHistory.run [] ("passthrough\n  <begin>\n\nif a\n" : String)).error?.map
      SourceError.line = some 4 := by decide +kernel
  obtain ⟨f, hf, hfline⟩ := Option.map_eq_some_iff.mp hline
  obtain ⟨g, hg, hshows, -⟩ := rejected_at_source (SourceHistory.not_accepts hf)
  obtain rfl : f = g := Option.some.inj (hf.symm.trans hg)
  exact ⟨f, hf, hfline, hshows⟩

end Offside
