/-
Sources of one line.

A text that is scanned as one word is cut whole, and then it is a word of every line on which spaces
separate it from others. Two names may make a comparator there, and a comment takes what follows.
-/
import Offside.Proofs.Classification
import Offside.Proofs.Layout.Insertion
import Offside.Proofs.Layout.Join

set_option autoImplicit false

namespace Offside

open List Text Token Reading Row WordRule

variable {unit line source t w rest : Text} {words : List Word} {scanned : Scanned}

/-! ## Lines without spaces around them -/

namespace Reading

theorem indentation_of_content (h : content line = line) : indentation line = [] := by
  have hlength : (content line).length ≤ (line.dropWhile isIndent).length :=
    (trimEnd_sublist _ _).length_le
  have hsplit := congrArg List.length (takeWhile_append_dropWhile (p := isIndent) (l := line))
  rw [length_append] at hsplit
  rw [h] at hlength
  exact length_eq_zero_iff.mp (by rw [indentation]; omega)

theorem trimEnd_of_content (h : content line = line) : trimEnd isGap line = line := by
  have hdrop : line.dropWhile isIndent = line := by
    have hsplit := takeWhile_append_dropWhile (p := isIndent) (l := line)
    rwa [show line.takeWhile isIndent = [] from indentation_of_content h, nil_append] at hsplit
  rwa [content, hdrop] at h

theorem content_of_ends (hhead : ∀ b ∈ line.head?, isGap b = false) (hend : trimEnd isGap line = line) :
    content line = line := by
  cases line with
  | nil => rfl
  | cons b line =>
    have hb := hhead b rfl
    rw [isGap, Bool.or_eq_false_iff] at hb
    rw [content, dropWhile_cons_of_neg (by rw [hb.1]; decide), hend]

end Reading

/-- A source of one line is scanned if the line can be cut. -/
theorem scan_line_iff (hline : lineEnd ∉ line) (hcontent : content line = line) (hne : line ≠ []) :
    (scan unit line).outcome = .ok scanned ↔
      ∃ words, Word.cut line = .ok words ∧ scanned = ⟨Stream.unitOr unit, allTokens [.words 1 0 words]⟩ := by
  have hindent := indentation_of_content hcontent
  have hfilled : (content line).isEmpty = false := by
    rw [hcontent]
    exact isEmpty_eq_false_iff.mpr hne
  rw [scan_ok_iff, lines_line hline]
  constructor
  · rintro ⟨s, hread, rfl⟩
    rw [readLines] at hread
    obtain ⟨_, _, hone, hread⟩ := bind_ok hread
    cases hread
    rw [readLine_of_none rfl, hfilled, if_neg Bool.false_ne_true] at hone
    obtain ⟨level, words, detected, hlevel, hfits, hwords, rfl⟩ := readWords_ok hone
    rw [hcontent] at hwords
    refine ⟨words, hwords, ?_⟩
    have hunit : unitAt { unit := unit } line = unit := by
      rw [unitAt, hindent]
      split
      · next hempty => exact (List.isEmpty_iff.mp hempty).symm
      · rfl
    obtain rfl : level = 0 := hfits
    rw [hunit]
    rfl
  · rintro ⟨words, hcut, rfl⟩
    obtain ⟨raw, hone⟩ : ∃ raw, readLine 1 line { unit := unit } =
        .ok () { unit := unit, raw := raw, rows := [.words 1 0 words] } := by
      refine ⟨if Reading.opensRaw line then some { base := 0 } else none, ?_⟩
      rw [readLine_of_none rfl, hfilled, if_neg Bool.false_ne_true, readWords, hindent, hcontent,
        wordsOf, hcut]
      rfl
    refine ⟨{ unit := unit, raw := raw, rows := [.words 1 0 words] }, ?_, rfl⟩
    rw [readLines, bind_of_ok _ hone]
    rfl

/-! ## Words that are sources -/

def Token.ofLine (ws : List Text) : List Token :=
  Row.start :: ws.map (fun w => { text := w, line := 1 }) ++ [{ text := Marker.newline.text, line := 1 }]

def Text.ScansAlone (unit w : Text) : Prop :=
  ((scan unit w).outcome.toOption.map fun scanned => scanned.tokens.map fun t => (t.text, t.raw)) =
    some [(Marker.begin.text, false), (w, false), (Marker.newline.text, false)]

instance : DecidableRel ScansAlone := fun _ _ => inferInstanceAs (Decidable (_ = some _))

namespace Text

theorem pieces_sublist {sep : UInt8} {piece : Text} (h : piece ∈ t.pieces sep) : piece.Sublist t := by
  induction t generalizing piece with
  | nil =>
    rw [pieces, mem_singleton] at h
    rw [h]
  | cons b t ih =>
    rw [pieces] at h
    split at h
    · rcases mem_cons.mp h with rfl | h
      · exact nil_sublist _
      · exact (ih h).cons b
    · rcases hp : pieces sep t with _ | ⟨first, others⟩
      · exact absurd hp (pieces_ne_nil sep t)
      · rw [hp] at h ih
        rcases mem_cons.mp h with rfl | h
        · exact (ih mem_cons_self).cons_cons b
        · exact (ih (mem_cons_of_mem _ h)).cons b

theorem unifyLineEnds_sublist (t : Text) : (unifyLineEnds t).Sublist t := by
  induction t with
  | nil => exact List.Sublist.refl _
  | cons b t ih =>
    rw [unifyLineEnds]
    split
    · exact ih.cons b
    · exact ih.cons_cons b

theorem lines_sublist (h : line ∈ source.lines) : line.Sublist source :=
  (pieces_sublist h).trans (unifyLineEnds_sublist source)

end Text

namespace Word

variable {v : Word}

theorem eq_singleton_of_length (h : cut line = .ok words) (hv : v ∈ words) (hlength : line.length ≤ v.text.length) :
    words = [v] := by
  obtain ⟨hspells, hcuts⟩ := cut_spec h
  obtain ⟨before, after, rfl⟩ := append_of_mem hv
  have hsum := congrArg List.length hspells
  rw [map_append, map_cons, flatten_append, flatten_cons, length_append,
    length_append] at hsum
  have hnil : ∀ ws : List Word, (∀ w ∈ ws, w.IsCut) → (ws.map Word.text).flatten.length = 0 → ws = [] := by
    intro ws hws hzero
    cases ws with
    | nil => rfl
    | cons w ws =>
      obtain ⟨b, rest, hw⟩ := (hws w mem_cons_self).text_eq_cons
      rw [map_cons, flatten_cons, hw] at hzero
      cases hzero
  rw [hnil before (fun w hw => hcuts w (mem_append_left _ hw)) (by omega),
    hnil after (fun w hw => hcuts w (mem_append_right _ (mem_cons_of_mem _ hw))) (by omega)]
  rfl

theorem IsCut.length_le (h : v.IsCut) {number level : Nat} {t : Token} (ht : t ∈ v.tokens number level)
    (hraw : t.raw = false) : t.text.length ≤ v.text.length := by
  by_cases hcomment : v.rule = .comment
  · obtain ⟨b, rest, htext⟩ := h.text_eq_cons
    have hlong : v.text.length = rest.length + 1 := by rw [htext, length_cons]
    rw [text_of_comment hcomment ht hraw, commentSign]
    split
    · next hsign =>
      rw [after?] at hsign
      split at hsign
      · next hprefix => exact (List.isPrefixOf_iff_prefix.mp hprefix).length_le
      · cases hsign
    · have hone : (ofString "#").length = 1 := by decide
      omega
  obtain ⟨-, text, htext, rfl⟩ := eq_of_mem_tokens hcomment ht
  rcases htext with rfl | ⟨hrule, rfl⟩
  · exact Nat.le_refl _
  · obtain ⟨pair, -, gap, hne, htext, hrespaced⟩ := h.respaced_text hrule
    have hone : (ofString " ").length = 1 := by decide
    have hpos := length_pos_of_ne_nil hne
    dsimp only
    rw [hrespaced, htext]
    simp only [length_append, hone]
    omega

end Word

theorem Row.Sound.tokens_ne_nil {row : Row} (h : row.Sound) : row.tokens ≠ [] := by
  cases row with
  | words =>
    obtain ⟨t, ts, htokens, -⟩ := h.start rfl
    rw [htokens]
    exact cons_ne_nil _ _
  | verbatim => exact cons_ne_nil _ _

theorem Row.tokensAfter_ne_nil (a : Row) (rows : List Row) : tokensAfter a rows ≠ [] := by
  obtain ⟨_, -, hlast⟩ := getLast?_tokensAfter a rows
  intro hnil
  rw [hnil] at hlast
  cases hlast

/-- A layout of three tokens is one row with one token. -/
theorem Row.Laid.eq_singleton {rows : List Row} (h : Laid rows) (hthree : (allTokens rows).length = 3) :
    ∃ row t, rows = [row] ∧ row.isVerbatim = false ∧ row.tokens = [t] := by
  cases rows with
  | nil => cases hthree
  | cons a rows =>
    have ha := length_pos_of_ne_nil (h.sound a mem_cons_self).tokens_ne_nil
    rw [allTokens, length_append, length_cons] at hthree
    cases rows with
    | nil =>
      have hclosing := length_pos_of_ne_nil (tokensAfter_ne_nil a [])
      obtain ⟨t, ht⟩ := length_eq_one_iff.mp (show a.tokens.length = 1 by omega)
      exact ⟨a, t, rfl, (h.first a rfl).1, ht⟩
    | cons b rows =>
      exfalso
      have hb := length_pos_of_ne_nil (h.sound b (mem_cons_of_mem _ mem_cons_self)).tokens_ne_nil
      have hafter := length_pos_of_ne_nil (tokensAfter_ne_nil b rows)
      rw [tokensAfter, length_append, length_append] at hthree
      omega

theorem Word.first?_of_cut {rule : WordRule} (h : Word.cut w = .ok [⟨rule, w⟩]) (hw : w ≠ []) :
    first? w = some (rule, w.length) := by
  obtain ⟨b, rest, rfl⟩ := exists_cons_of_ne_nil hw
  obtain ⟨rule', n, _, hfirst, -, hwords⟩ := Word.cut_cons h
  obtain ⟨rfl, htake⟩ := Word.mk.inj (cons.inj hwords).1
  obtain ⟨hn, -⟩ := first?_spec hfirst
  have hle := WordRule.length_le rule (b :: rest)
  have hge := congrArg List.length htake
  rw [length_take] at hge
  rw [hfirst, show n = (b :: rest).length by omega]

/-- A text that is scanned as one word is cut whole, by one rule. -/
theorem Text.ScansAlone.whole (h : ScansAlone unit w) :
    (∃ rule, IsWhole rule w) ∧ lineEnd ∉ w ∧ content w = w := by
  obtain ⟨scanned, hscan, htokens⟩ : ∃ scanned, (scan unit w).outcome = .ok scanned ∧
      scanned.tokens.map (fun t => (t.text, t.raw)) =
        [(Marker.begin.text, false), (w, false), (Marker.newline.text, false)] := by
    rw [ScansAlone] at h
    cases hscan : (scan unit w).outcome with
    | error e => rw [hscan] at h; cases h
    | ok scanned =>
      rw [hscan] at h
      exact ⟨scanned, rfl, Option.some.inj h⟩
  obtain ⟨s, hread, rfl⟩ := scan_ok_iff.mp hscan
  have hlaid := (sound_of_readLines hread).rows.laid
  obtain ⟨row, t, hrow, hverbatim, hrowTokens⟩ := hlaid.eq_singleton (by simpa using congrArg List.length htokens)
  obtain ⟨line, hline, number, level, words, rfl, hcut⟩ : ∃ line ∈ w.lines, ∃ number level words,
      row = .words number level words ∧ Word.cut (content line) = .ok words := by
    refine readLines_forall (P := fun row => row.isVerbatim = false → ∃ line ∈ w.lines, ∃ number level words,
      row = .words number level words ∧ Word.cut (content line) = .ok words) hread (fun _ hrow => nomatch hrow)
      (fun line hline number level words hcut _ => ⟨line, hline, number, level, words, rfl, hcut⟩)
      (fun _ _ _ _ _ _ _ _ hno => nomatch hno) (fun _ _ hno => nomatch hno) row ?_ hverbatim
    rw [← mem_reverse, hrow]
    exact mem_singleton.mpr rfl
  obtain ⟨htext, hraw⟩ : t.text = w ∧ t.raw = false := by
    rw [hrow, allTokens, hrowTokens] at htokens
    exact Prod.mk.inj (cons.inj (cons.inj htokens).2).1
  -- The token is as long as the source, so its word is the line and the line is the source.
  obtain ⟨v, hv, ht⟩ := mem_flatMap.mp (show t ∈ words.flatMap (Word.tokens number level) by
    rw [show words.flatMap (Word.tokens number level) = [t] from hrowTokens]
    exact mem_singleton.mpr rfl)
  have hlong := ((Word.cut_spec hcut).2 v hv).length_le ht hraw
  have hcontent := content_sublist line
  have hsource := lines_sublist hline
  rw [htext] at hlong
  have hlt := hcontent.length_le
  have hls := hsource.length_le
  obtain rfl := Word.eq_singleton_of_length hcut hv (by omega)
  have hspells := Word.cut_spells hcut
  rw [map_singleton, flatten_singleton] at hspells
  rw [hspells] at hlong
  obtain rfl := hsource.eq_of_length_le (by omega)
  have hself := hcontent.eq_of_length_le hlong
  have hend : lineEnd ∉ line := lineEnd_not_mem_lines hline
  rw [hself] at hcut hspells
  obtain ⟨b, rest, hv⟩ := ((Word.cut_spec hcut).2 v (mem_singleton.mpr rfl)).text_eq_cons
  have hne : line ≠ [] := by
    rw [← hspells, hv]
    exact cons_ne_nil _ _
  obtain ⟨rule, text⟩ := v
  obtain rfl : text = line := hspells
  refine ⟨⟨rule, Word.first?_of_cut hcut hne, ?_⟩, hend, hself⟩
  obtain ⟨words, hwords, hscanned⟩ := (scan_line_iff hend hself hne).mp hscan
  obtain rfl := Except.ok.inj (hcut.symm.trans hwords)
  rw [(Scanned.mk.inj hscanned).2] at htokens
  have hplace : ∀ u ∈ Word.tokens 1 0 ⟨rule, text⟩, u.level = 0 ∧ u.line = 1 ∧ u.depth = 0 := by
    intro u hu
    have hrow : u ∈ (Row.words 1 0 [⟨rule, text⟩]).tokens := by rwa [Row.tokens, flatMap_singleton]
    exact Row.mem_tokens hrow
  have hafter : tokensAfter (.words 1 0 [⟨rule, text⟩]) [] = [{ text := Marker.newline.text, line := 1 }] := rfl
  rw [allTokens, Row.tokens, flatMap_singleton, hafter] at htokens
  generalize Word.tokens 1 0 ⟨rule, text⟩ = ts at htokens hplace ⊢
  rcases ts with _ | ⟨u, _ | ⟨_, _⟩⟩
  · cases congrArg List.length htokens
  · obtain ⟨hlevel, hnumber, hdepth⟩ := hplace u (mem_singleton.mpr rfl)
    obtain ⟨htext, hraw⟩ := Prod.mk.inj (cons.inj (cons.inj htokens).2).1
    cases u
    cases hlevel
    cases hnumber
    cases hdepth
    cases htext
    cases hraw
    rfl
  · simp at htokens

/-! ## Words and spaces -/

theorem Row.allTokens_line {ws : List Text}
    (h : words.flatMap (Word.tokens 1 0) = ws.map fun w => { text := w, line := 1 }) :
    allTokens [.words 1 0 words] = ofLine ws := by
  rw [allTokens, Row.tokens, h]
  rfl

namespace Text

variable {ws : List Text}

/-- Joined words start with a word. -/
theorem exists_head_join (hne : ws ≠ []) (hwhole : ∀ w ∈ ws, ∃ rule, IsWhole rule w) :
    ∃ b rest, join " " ws = b :: rest ∧ isGap b = false := by
  obtain ⟨w, ws, rfl⟩ := exists_cons_of_ne_nil hne
  obtain ⟨rule, hw⟩ := hwhole w mem_cons_self
  obtain ⟨b, rest, rfl, -, hgap⟩ := hw.exists_cons
  obtain ⟨more, hmore⟩ := head?_eq_some_iff.mp (head?_join (cons_ne_nil b rest) ws)
  exact ⟨b, more, hmore, hgap⟩

/-- Joined words end with a word. -/
theorem trimEnd_join (hne : ws ≠ []) (hwhole : ∀ w ∈ ws, ∃ rule, IsWhole rule w)
    (hends : ∀ w ∈ ws, trimEnd isGap w = w) : trimEnd isGap (join " " ws) = join " " ws := by
  induction ws with
  | nil => exact absurd rfl hne
  | cons w ws ih =>
    cases ws with
    | nil =>
      rw [join_singleton]
      exact hends w mem_cons_self
    | cons v ws =>
      have hwhole := (forall_mem_cons.mp hwhole).2
      have hrest := ih (cons_ne_nil _ _) hwhole (forall_mem_cons.mp hends).2
      obtain ⟨b, rest, hb, -⟩ := exists_head_join (cons_ne_nil v ws) hwhole
      have hfilled : trimEnd isGap (join " " (v :: ws)) ≠ [] := by
        rw [hrest, hb]
        exact cons_ne_nil _ _
      rw [join_cons_cons, ← singleton_append, ← append_assoc, trimEnd_append_of_ne_nil hfilled, hrest]

theorem not_mem_join {b : UInt8} (hb : b ≠ space) (hws : ∀ w ∈ ws, b ∉ w) : b ∉ join " " ws := by
  induction ws with
  | nil => exact not_mem_nil
  | cons w ws ih =>
    obtain ⟨hw, hws⟩ := forall_mem_cons.mp hws
    cases ws with
    | nil => rwa [join_singleton]
    | cons v ws =>
      rw [join_cons_cons, mem_append, mem_cons]
      rintro (h | h | h)
      · exact hw h
      · exact hb h
      · exact ih hws h

end Text

/-- Words that are scanned as such are scanned together when spaces separate them. No two of them
may make a comparator, and only the last may be the sign of a comment. -/
theorem scan_join {unit : Text} {ws : List Text} (hne : ws ≠ []) (halone : ∀ w ∈ ws, Text.ScansAlone unit w)
    (hpairs : ws.IsChain fun w v => (w, v) ∉ WordRule.comparatorWords)
    (hsigns : ∀ w ∈ ws.dropLast, w ∉ (["#", "#."] : List Text)) :
    (scan unit (Text.join " " ws)).outcome = .ok ⟨Stream.unitOr unit, Token.ofLine ws⟩ := by
  have hwhole : ∀ w ∈ ws, ∃ rule, Text.IsWhole rule w := fun w hw => (halone w hw).whole.1
  have hlines : ∀ w ∈ ws, Text.lineEnd ∉ w := fun w hw => (halone w hw).whole.2.1
  have hends : ∀ w ∈ ws, Text.trimEnd Text.isGap w = w := fun w hw =>
    Reading.trimEnd_of_content (halone w hw).whole.2.2
  obtain ⟨words, hcut, htokens⟩ := Word.cut_join hne hwhole hpairs hsigns
  obtain ⟨b, rest, hjoin, hgap⟩ := Text.exists_head_join hne hwhole
  have hfilled : Text.join " " ws ≠ [] := by
    rw [hjoin]
    exact cons_ne_nil _ _
  have hcontent : Reading.content (Text.join " " ws) = Text.join " " ws := by
    refine Reading.content_of_ends (fun c hc => ?_) (Text.trimEnd_join hne hwhole hends)
    rw [hjoin] at hc
    obtain rfl := Option.some.inj hc
    exact hgap
  rw [scan_line_iff (Text.not_mem_join (by decide) hlines) hcontent hfilled]
  exact ⟨words, hcut, by rw [Row.allTokens_line htokens]⟩

/-- A comparator and a text with spaces are words too, and the sign of a comment may come last. -/
theorem scan_join_literals :
    (scan [] (Text.join " " ["total", "+=", "\"a # b\"", "less than", "2.5e-3uL", "#"])).outcome =
      .ok ⟨Stream.unitOr [], Token.ofLine ["total", "+=", "\"a # b\"", "less than", "2.5e-3uL", "#"]⟩ :=
  scan_join (cons_ne_nil _ _) (by decide +kernel) (by decide +kernel) (by decide +kernel)

/-- The sign of a comment takes the words behind it. -/
theorem scan_comment_sign_join : (∀ w ∈ (["#", "x"] : List Text), Text.ScansAlone [] w) ∧
      (["#", "x"] : List Text).IsChain (fun w v => (w, v) ∉ WordRule.comparatorWords) ∧
      (scan [] (Text.join " " ["#", "x"])).outcome ≠ .ok ⟨Stream.unitOr [], Token.ofLine ["#", "x"]⟩ := by
  decide +kernel

/-! ## Numbers -/

namespace Text

def hasBarePoint : Text → Bool
  | [] => false
  | b :: rest => (b == '.'.toUInt8 && !(rest.head?.map isDigit).getD false) || hasBarePoint rest

def hasPrefixedSuffix (t : Text) : Bool :=
  (afterPrefixed? isHexMark isHexPart t).any (!·.isEmpty) ||
    (afterPrefixed? isBinaryMark isBinaryPart t).any (!·.isEmpty)

theorem hasBarePoint_append {a : Text} (h : '.'.toUInt8 ∉ a) (t : Text) : hasBarePoint (a ++ t) = hasBarePoint t := by
  induction a with
  | nil => rfl
  | cons b a ih =>
    rw [mem_cons, not_or] at h
    have hb : (b == '.'.toUInt8) = false := beq_eq_false_iff_ne.mpr (Ne.symm h.1)
    rw [cons_append, hasBarePoint, hb, ih h.2]
    rfl

theorem hasBarePoint_of_not_mem (h : '.'.toUInt8 ∉ t) : hasBarePoint t = false := by
  have happend := hasBarePoint_append h []
  rwa [append_nil] at happend

theorem not_mem_of_dropWhile {p : UInt8 → Bool} {b : UInt8} (hp : p b = false) (h : b ∉ t.dropWhile p) : b ∉ t := by
  rw [← takeWhile_append_dropWhile (p := p) (l := t), mem_append, not_or]
  refine ⟨fun hmem => ?_, h⟩
  rw [all_eq_true.mp all_takeWhile b hmem] at hp
  cases hp

theorem not_mem_of_isNumberSuffix (h : isNumberSuffix (skipExponent t)) : '.'.toUInt8 ∉ t := by
  have hletters : '.'.toUInt8 ∉ skipExponent t := by
    rw [isNumberSuffix, Bool.and_eq_true] at h
    intro hmem
    exact absurd (all_eq_true.mp h.2 _ hmem) (by decide)
  rw [skipExponent] at hletters
  cases hafter : afterExponent? t with
  | none => rwa [hafter] at hletters
  | some rest =>
    rw [hafter, Option.getD_some] at hletters
    obtain ⟨e, sign, d, ds, rfl, he, hsign, hd, rfl, -⟩ := exists_digits hafter
    rw [mem_cons, mem_append, mem_cons]
    rintro (rfl | hmem | rfl | hmem)
    · exact absurd he (by decide)
    · exact absurd (hsign _ hmem) (by decide)
    · exact absurd hd (by decide)
    · exact not_mem_of_dropWhile (p := isDigit) rfl hletters hmem

theorem skipSuffix_of_isNumberSuffix (h : isNumberSuffix t) : skipSuffix t = [] := by
  rw [isNumberSuffix, Bool.and_eq_true, decide_eq_true_iff] at h
  rw [skipSuffix, takeWhile_eq_self_iff.mpr (all_eq_true.mp h.2), Nat.min_eq_right h.1, drop_length]

theorem not_mem_of_afterPrefixed? {mark part : UInt8 → Bool} (hmark : mark '.'.toUInt8 = false)
    (hpart : part '.'.toUInt8 = false) (h : afterPrefixed? mark part t = some []) : '.'.toUInt8 ∉ t := by
  obtain ⟨letter, d, ds, rfl, hletter, hd, hnil⟩ := afterPrefixed?_eq_some_iff.mp h
  rw [mem_cons, mem_cons, mem_cons]
  rintro (hzero | rfl | rfl | hmem)
  · exact absurd hzero (by decide)
  · rw [hmark] at hletter
    cases hletter
  · rw [hpart] at hd
    cases hd
  · exact not_mem_of_dropWhile hpart (by rw [← hnil]; exact not_mem_nil) hmem

theorem binary_eq_none_of_hex (h : afterPrefixed? isHexMark isHexPart t = some rest) :
    afterPrefixed? isBinaryMark isBinaryPart t = none := by
  have hmarks : ∀ b, isHexMark b → isBinaryMark b = false := by
    intro b hb
    rw [isHexMark, Bool.or_eq_true, beq_iff_eq, beq_iff_eq] at hb
    rcases hb with rfl | rfl <;> decide
  obtain ⟨letter, d, ds, rfl, hletter, -⟩ := afterPrefixed?_eq_some_iff.mp h
  rw [afterPrefixed?, hmarks letter hletter, Bool.and_false]
  rfl

/-- The fraction of a decimal number is taken if there is a digit behind its point. -/
theorem decimal_eq_nil_iff (h : isNumberSuffix (skipExponent (skipLooseFraction t))) :
    skipSuffix (skipExponent (skipFraction t)) = [] ↔ hasBarePoint t = false := by
  rcases t with _ | ⟨b, t⟩
  · exact ⟨fun _ => rfl, fun _ => rfl⟩
  by_cases hb : b = '.'.toUInt8
  · subst hb
    rcases t with _ | ⟨c, t⟩
    · constructor <;> intro hno <;> exact absurd hno (by decide)
    rw [skipLooseFraction, if_pos (beq_self_eq_true _)] at h
    by_cases hc : isDigit c
    · have hpart : isDecimalPart c := by rw [isDecimalPart, hc]; rfl
      rw [dropWhile_cons_of_pos hpart] at h
      have hpoint : '.'.toUInt8 ∉ c :: t := by
        refine not_mem_of_dropWhile (p := isDecimalPart) rfl ?_
        rw [dropWhile_cons_of_pos hpart]
        exact not_mem_of_isNumberSuffix h
      rw [skipFraction, hc, if_pos (by decide), skipSuffix_of_isNumberSuffix h, hasBarePoint, head?_cons,
        Option.map_some,
        Option.getD_some, hc, hasBarePoint_of_not_mem hpoint]
      exact ⟨fun _ => rfl, fun _ => rfl⟩
    · -- Neither the fraction nor an exponent nor a letter starts with the point.
      rw [Bool.not_eq_true] at hc
      rw [skipFraction, hc, Bool.and_false, if_neg Bool.false_ne_true, hasBarePoint, head?_cons, Option.map_some,
        Option.getD_some, hc]
      constructor <;> rintro ⟨⟩
  · have hne : (b == '.'.toUInt8) = false := beq_eq_false_iff_ne.mpr hb
    have hfraction : skipFraction (b :: t) = b :: t := by
      cases t with
      | nil => rfl
      | cons c t => rw [skipFraction, hne, Bool.false_and, if_neg Bool.false_ne_true]
    rw [skipLooseFraction, hne, if_neg Bool.false_ne_true] at h
    rw [hfraction, skipSuffix_of_isNumberSuffix h, hasBarePoint_of_not_mem (not_mem_of_isNumberSuffix h)]
    exact ⟨fun _ => rfl, fun _ => rfl⟩

/-- A number is taken whole unless it has a bare point or a suffix that is left over. -/
theorem afterNumber?_eq_nil_iff (h : isNumber t) :
    afterNumber? t = some [] ↔ hasBarePoint t = false ∧ hasPrefixedSuffix t = false := by
  have hprefixed : ∀ {mark part : UInt8 → Bool} {rest : Text}, mark '.'.toUInt8 = false → part '.'.toUInt8 = false →
      afterPrefixed? mark part t = some rest → hasPrefixedSuffix t = !rest.isEmpty →
      (some rest = some [] ↔ hasBarePoint t = false ∧ hasPrefixedSuffix t = false) := by
    intro mark part rest hmark hpart hrest hsuffix
    rw [hsuffix]
    constructor
    · rintro ⟨⟩
      exact ⟨hasBarePoint_of_not_mem (not_mem_of_afterPrefixed? hmark hpart hrest), rfl⟩
    · rintro ⟨-, hempty⟩
      have hnil : rest = [] := by simpa using hempty
      rw [hnil]
  unfold afterNumber?
  cases hhex : afterPrefixed? isHexMark isHexPart t with
  | some rest => exact hprefixed rfl rfl hhex (by simp [hasPrefixedSuffix, hhex, binary_eq_none_of_hex hhex])
  | none =>
    cases hbinary : afterPrefixed? isBinaryMark isBinaryPart t with
    | some rest => exact hprefixed rfl rfl hbinary (by simp [hasPrefixedSuffix, hhex, hbinary])
    | none =>
      have hsuffix : hasPrefixedSuffix t = false := by simp [hasPrefixedSuffix, hhex, hbinary]
      rw [isNumber, hhex, hbinary] at h
      rcases t with _ | ⟨d, t⟩
      · cases h
      have hdecimal : isDecimalNumber (d :: t) := h
      rw [isDecimalNumber, Bool.and_eq_true] at hdecimal
      -- A point can only come behind the first digits.
      have hpoint : '.'.toUInt8 ∉ d :: t.takeWhile isDecimalPart := by
        rw [mem_cons]
        rintro (rfl | hmem)
        · exact absurd hdecimal.1 (by decide)
        · exact absurd (all_eq_true.mp all_takeWhile _ hmem) (by decide)
      have hbare : hasBarePoint (d :: t) = hasBarePoint (t.dropWhile isDecimalPart) := by
        have happend := hasBarePoint_append hpoint (t.dropWhile isDecimalPart)
        rwa [cons_append, takeWhile_append_dropWhile] at happend
      dsimp only
      rw [if_pos hdecimal.1, Option.some.injEq, decimal_eq_nil_iff hdecimal.2, hsuffix, hbare]
      exact ⟨fun hno => ⟨hno, rfl⟩, fun hno => hno.1⟩

theorem isWhole_of_afterNumber? (h : afterNumber? t = some []) : IsWhole .number t := by
  obtain ⟨d, rest, rfl⟩ : ∃ d rest, t = d :: rest := by
    cases t with
    | nil => cases h
    | cons d rest => exact ⟨d, rest, rfl⟩
  have hlength : WordRule.number.length (d :: rest) = (d :: rest).length := by
    rw [WordRule.length, h]
    rfl
  have hpos : 0 < WordRule.number.length (d :: rest) := by
    rw [hlength]
    exact Nat.succ_pos _
  refine ⟨first?_eq_some_iff.mpr ⟨hlength.symm, Nat.succ_pos _, fun earlier hmem => ?_⟩, rfl⟩
  by_contra hne
  have hopens := opens_of_length hpos
  rcases eq_of_opens hmem hopens (opens_of_length (Nat.pos_of_ne_zero hne))
    with ⟨-, hrule⟩ | ⟨-, hrule⟩ <;> cases hrule

end Text

/-- Alone, a number is scanned as one word unless its point has no digit behind it or something
follows the digits behind its prefix. -/
theorem scan_number_iff {w : Text} (unit : Text) (h : Category.ofText w = .numberLiteral) :
    (scan unit w).outcome = .ok ⟨Stream.unitOr unit, Token.ofLine [w]⟩ ↔
      w.hasBarePoint = false ∧ w.hasPrefixedSuffix = false := by
  have hnumber : w.isNumber = true := by
    rcases Category.ofText_cases w with ⟨e, he, -, hcategory⟩ | ⟨s, hs, hcategory⟩ | ⟨-, hcategory⟩
    · have hall : ∀ e ∈ Keyword.table, e.2.category ≠ .numberLiteral := by decide
      exact absurd (hcategory.symm.trans h) (hall e he)
    · rw [h] at hcategory
      cases s <;> first | exact hs | cases hcategory
    · rw [h] at hcategory
      cases hcategory
  rw [← Text.afterNumber?_eq_nil_iff hnumber]
  constructor
  · intro hscan
    have halone : Text.ScansAlone unit w := by
      rw [Text.ScansAlone, hscan]
      rfl
    obtain ⟨⟨rule, hwhole⟩, -, -⟩ := halone.whole
    -- A digit is first, and of all rules only that of numbers starts with one.
    obtain ⟨d, rest, rfl, hd⟩ := Text.exists_digit_of_isNumber hnumber
    obtain ⟨_, _, hcons, hopens, -⟩ := hwhole.exists_cons
    obtain ⟨rfl, -⟩ := cons.inj hcons
    obtain rfl := WordRule.eq_number_of_opens hd hopens
    have hlength := hwhole.length_eq
    rw [WordRule.length] at hlength
    cases hafter : Text.afterNumber? (d :: rest) with
    | none => rw [hafter] at hlength; cases hlength
    | some tail =>
      rw [hafter, Option.map_some, Option.getD_some, length_cons] at hlength
      rw [length_eq_zero_iff.mp (show tail.length = 0 by omega)]
  · intro hafter
    have hwhole := Text.isWhole_of_afterNumber? hafter
    obtain ⟨a, ha, hparts⟩ := Text.numberLeaves_of_afterNumber? hafter
    rw [append_nil] at ha
    subst ha
    -- No byte of a number is a gap, so the line is all content.
    have hgap : ∀ b ∈ w, Text.isGap b = false ∧ b ≠ Text.lineEnd := fun b hb =>
      Text.isGap_of_isNumberPart b (all_eq_true.mp hparts b hb)
    obtain ⟨b, rest, hw, -, -⟩ := hwhole.exists_cons
    have hcontent : Reading.content w = w := by
      refine Reading.content_of_ends (fun b hb => (hgap b (mem_of_mem_head? hb)).1) ?_
      have hfirst : ∀ b ∈ w.reverse.head?, ¬ Text.isGap b = true := fun b hb => by
        rw [(hgap b (mem_reverse.mp (mem_of_mem_head? hb))).1]
        decide
      rw [Text.trimEnd, dropWhile_eq_self_iff.mpr fun hpos => hfirst _ ?_, reverse_reverse]
      rw [head?_eq_getElem?, getElem?_eq_getElem hpos]
      rfl
    rw [scan_line_iff (fun hmem => (hgap _ hmem).2 rfl) hcontent (by rw [hw]; exact cons_ne_nil _ _)]
    refine ⟨_, Word.cut_whole hwhole, ?_⟩
    rw [Row.allTokens_line (show [_].flatMap _ = [w].map _ by rw [flatMap_singleton, hwhole.token]; rfl)]

/-- A digit before the point is not enough. -/
theorem scan_number_iff_point :
    (scan [] ("1_000.25e-3uL" : String)).outcome = .ok ⟨Stream.unitOr [], Token.ofLine ["1_000.25e-3uL"]⟩ ∧
      (scan [] ("2." : String)).outcome ≠ .ok ⟨Stream.unitOr [], Token.ofLine ["2."]⟩ :=
  ⟨(scan_number_iff [] (by decide +kernel)).mpr (by decide +kernel),
    fun h => absurd ((scan_number_iff [] (by decide +kernel)).mp h) (by decide +kernel)⟩

end Offside
