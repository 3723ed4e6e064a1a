/-
Which tokens stand next to each other.

A line is code, and at its end perhaps a comment. Between two lines stand markers only, dedents
before the newline. This is all that the translation has to know about lines (`Token.Adjacent`).
-/
import Offside.Proofs.Layout.Rule
import Offside.Proofs.Layout.Scan
import Offside.Proofs.Spelling.Woven

set_option autoImplicit false

namespace Offside

open List Text Token Reading Row LineComment

/-! ## Bytes of characters -/

namespace Symbol

variable {b : UInt8} {c : Char} {n : Nat} {rest : Text}

theorem toNat_of_mem_encode (h : b ∈ String.utf8EncodeChar c) (hb : b < 0x80) : c.toNat = b.toNat := by
  have hbyte : ∀ n : Nat, b = UInt8.ofNat n → n % 256 = b.toNat := by
    intro n hn
    have hnat := congrArg UInt8.toNat hn
    rw [UInt8.toNat_ofNat'] at hnat
    exact hnat.symm
  have hlt : b.toNat < 128 := UInt8.lt_iff_toNat_lt.mp hb
  unfold String.utf8EncodeChar at h
  dsimp only at h
  change c.val.toNat = b.toNat
  split at h
  · have := hbyte _ (mem_singleton.mp h)
    omega
  · exfalso
    split at h
    · simp only [mem_cons, not_mem_nil, or_false] at h
      rcases h with h | h <;> have := hbyte _ h <;> omega
    · split at h
      · simp only [mem_cons, not_mem_nil, or_false] at h
        rcases h with h | h | h <;> have := hbyte _ h <;> omega
      · simp only [mem_cons, not_mem_nil, or_false] at h
        rcases h with h | h | h | h <;> have := hbyte _ h <;> omega

theorem decode?_of_lt (hb : b < 0x80) (rest : Text) : decode? b rest = some (Char.ofNat b.toNat, 0) := if_pos hb

theorem toNat_ofNat (b : UInt8) : (Char.ofNat b.toNat).toNat = b.toNat := by
  have hvalid : b.toNat.isValidChar := .inl (by have := b.toNat_lt; omega)
  rw [Char.ofNat, dif_pos hvalid]
  rfl

theorem le_of_checked? {least code : Nat} (h : checked? least code = some c) : least ≤ c.toNat := by
  rw [checked?] at h
  split at h
  · next hok =>
    cases h
    have hcode : (Char.ofNat code).toNat = code := by
      rw [Char.ofNat, dif_pos hok.2]
      rfl
    omega
  · cases h

theorem le_of_decode? (hb : ¬ b < 0x80) (h : decode? b rest = some (c, n)) : 0x80 ≤ c.toNat := by
  unfold decode? at h
  rw [if_neg hb] at h
  split_ifs at h <;>
    simp only [Option.bind_eq_bind, Option.bind_eq_some_iff, pure, Option.some.injEq, Prod.mk.injEq] at h
  · obtain ⟨_, -, c', hc', rfl, -⟩ := h
    exact le_of_checked? hc'
  · obtain ⟨_, -, _, -, c', hc', rfl, -⟩ := h
    exact Nat.le_trans (by decide) (le_of_checked? hc')
  · obtain ⟨_, -, _, -, _, -, c', hc', rfl, -⟩ := h
    exact Nat.le_trans (by decide) (le_of_checked? hc')

theorem eq_of_decode? {d : UInt8} (h : decode? b rest = some (c, n)) (hc : c.toNat = d.toNat)
    (hd : d < 0x80) : b = d := by
  by_cases hb : b < 0x80
  · rw [decode?_of_lt hb] at h
    cases h
    rw [toNat_ofNat] at hc
    exact UInt8.toNat_inj.mp hc
  · have hle := le_of_decode? hb h
    have hlt : d.toNat < 128 := UInt8.lt_iff_toNat_lt.mp hd
    omega

end Symbol

/-! ## Line ends -/

variable {skip : Nat} {row : Row} {t line unit source : Text} {w : Word} {rows : List Row} {words : List Word}

namespace Text

theorem lineEnd_mem_symbolsAfter {s : Symbol} (hs : s ∈ symbolsAfter skip t) (h : lineEnd ∈ s.bytes) :
    lineEnd ∈ t := by
  induction t generalizing skip with
  | nil =>
    rw [symbolsAfter] at hs
    cases hs
  | cons b t ih =>
    rcases skip with _ | skip
    · rw [symbolsAfter] at hs
      split at hs
      · next c more hdecode =>
        rcases mem_cons.mp hs with rfl | hs
        · have hascii : lineEnd < 0x80 := by decide
          rw [Symbol.eq_of_decode? hdecode (Symbol.toNat_of_mem_encode h hascii) hascii]
          exact mem_cons_self
        · exact mem_cons_of_mem _ (ih hs)
      · rcases mem_cons.mp hs with rfl | hs
        · rw [mem_singleton.mp h]
          exact mem_cons_self
        · exact mem_cons_of_mem _ (ih hs)
    · exact mem_cons_of_mem _ (ih hs)

theorem trimEnd_sublist (p : UInt8 → Bool) (t : Text) : (trimEnd p t).Sublist t := by
  have hsub := (dropWhile_sublist (l := t.reverse) p).reverse
  rwa [reverse_reverse] at hsub

/-- Trimming adds no line end. -/
theorem lineEnd_not_mem_trim (h : lineEnd ∉ t) : lineEnd ∉ trim t := by
  intro hmem
  obtain ⟨s, hs, hbyte⟩ := mem_flatMap.mp hmem
  rw [mem_reverse] at hs
  have hs := (dropWhile_sublist _).subset hs
  rw [mem_reverse] at hs
  exact h (lineEnd_mem_symbolsAfter ((dropWhile_sublist _).subset hs) hbyte)

end Text

/-! ## The tokens of a line -/

namespace Word

def comment? (w : Word) : Option LineComment :=
  if w.rule = .comment then
    let sign := commentSign w.text
    some { documents := sign == "#.", text := trim (w.text.drop sign.length) }
  else none

def lineComment? (words : List Word) : Option LineComment := words.getLast?.bind comment?

/-- A comment is the last word of its line. -/
theorem cut_comment_last {before after : List Word} (h : cut line = .ok words) (hsplit : words = before ++ w :: after)
    (hrule : w.rule = .comment) : after = [] := by
  induction line, words, h using cut_induction generalizing before with
  | nil => exact absurd hsplit (by simp)
  | cons b t rule n words _ hfirst hrest ih =>
    cases before with
    | nil =>
      -- The comment has taken all bytes, so that nothing is left to cut.
      obtain ⟨rfl, rfl⟩ := cons.inj hsplit
      obtain rfl : rule = .comment := hrule
      obtain ⟨hn, hpos⟩ := WordRule.first?_spec hfirst
      have hall : n = (b :: t).length := by
        rw [WordRule.length] at hn
        split at hn
        · exact hn
        · omega
      rw [hall, drop_length] at hrest
      exact (Except.ok.inj hrest).symm
    | cons v before => exact ih (cons.inj hsplit).2

theorem written_comment (hrule : w.rule = .comment) (line level : Nat) :
    WrittenAfter w.comment? (w.tokens line level) := by
  have hsign : ∀ t ∈ (["#.", "#"] : List Text),
      (({ text := t, line := line, level := level } : Token).isCommentSign) := by
    intro t ht
    simp only [mem_cons, not_mem_nil, or_false] at ht
    rcases ht with rfl | rfl <;> rfl
  have hsign := hsign (commentSign w.text) (by
    rcases commentSign_cases w.text with h | h <;> rw [h] <;> decide)
  rw [comment?, if_pos hrule, tokens, hrule]
  dsimp only
  split
  · next hempty =>
    rw [List.isEmpty_iff.mp hempty]
    exact .bare hsign
  · next hempty =>
    exact Written.text (t := { text := _, line := line, level := level, raw := true })
      hsign rfl

/-- The tokens of a line are code, and then perhaps a comment. -/
theorem tokens_of_cut {content : Text} (h : cut content = .ok words) (line level : Nat) :
    ∃ codes cs, words.flatMap (Word.tokens line level) = codes ++ cs ∧
      (∀ t ∈ codes, t.IsCode ∧ ∃ b rest, t.text = b :: rest ∧ startsCode b) ∧
      WrittenAfter (lineComment? words) cs := by
  have hcuts := (cut_spec h).2
  have hcode : ∀ ws : List Word, (∀ w ∈ ws, w ∈ words ∧ w.rule ≠ .comment) →
      ∀ t ∈ ws.flatMap (Word.tokens line level),
        t.IsCode ∧ ∃ b rest, t.text = b :: rest ∧ startsCode b := by
    intro ws hws t ht
    obtain ⟨w, hw, ht⟩ := mem_flatMap.mp ht
    exact (hcuts w (hws w hw).1).mem_tokens (hws w hw).2 ht
  rcases eq_nil_or_concat' words with rfl | ⟨before, last, rfl⟩
  · exact ⟨[], [], rfl, fun _ ht => (nomatch ht), rfl⟩
  have hbefore : ∀ w ∈ before, w ∈ before ++ [last] ∧ w.rule ≠ .comment := by
    intro w hw
    refine ⟨mem_append_left _ hw, fun hrule => ?_⟩
    obtain ⟨ws, vs, rfl⟩ := append_of_mem hw
    have hnil := cut_comment_last h (append_assoc ..) hrule
    exact absurd hnil (by simp)
  have hcomment : lineComment? (before ++ [last]) = last.comment? := by
    rw [lineComment?, getLast?_concat]
    rfl
  by_cases hrule : last.rule = .comment
  · refine ⟨before.flatMap (Word.tokens line level), last.tokens line level, ?_, hcode before hbefore, ?_⟩
    · rw [flatMap_append, flatMap_singleton]
    · rw [hcomment]
      exact written_comment hrule line level
  · refine ⟨_, [], (append_nil _).symm, hcode _ ?_, ?_⟩
    · intro w hw
      rcases mem_append.mp hw with hw | hw
      · exact hbefore w hw
      · obtain rfl := mem_singleton.mp hw
        exact ⟨mem_append_right _ (mem_singleton.mpr rfl), hrule⟩
    · rw [hcomment, comment?, if_neg hrule]
      rfl

theorem lineEnd_not_mem_tokens (h : Text.lineEnd ∉ w.text) {line level : Nat} {t : Token}
    (ht : t ∈ w.tokens line level) : Text.lineEnd ∉ t.text := by
  rw [Word.tokens] at ht
  split at ht
  · cases ht
  · dsimp only at ht
    rcases mem_cons.mp ht with rfl | ht
    · have hsigns : ∀ sign ∈ (["#.", "#"] : List Text), Text.lineEnd ∉ sign := by decide
      refine hsigns (commentSign w.text) ?_
      rcases commentSign_cases w.text with hsign | hsign <;> rw [hsign] <;> decide
    · split at ht
      · cases ht
      · rw [mem_singleton.mp ht]
        exact lineEnd_not_mem_trim fun hmem => h ((drop_sublist ..).subset hmem)
  · rw [mem_singleton.mp ht]
    intro hmem
    rcases mem_respaced hmem with hspace | hmem
    · exact absurd hspace (by decide)
    · exact h hmem
  · rw [mem_singleton.mp ht]
    exact h

end Word

namespace Row

/-- What the texts of a row are like. -/
structure Spelled (row : Row) : Prop where
  lineEnd : ∀ t ∈ row.tokens, Text.lineEnd ∉ t.text
  bracket : ∀ t ∈ row.tokens, t.raw = false → ∀ b ∈ t.text, isBracket b →
    t.category = .stringLiteral ∨ t.category = .characterLiteral ∨ t.category = .punctuation
  split : row.isVerbatim = false → ∃ codes cs comment, row.tokens = codes ++ cs ∧
    (∀ t ∈ codes, t.IsCode ∧ ∃ b rest, t.text = b :: rest ∧ Word.startsCode b) ∧
    WrittenAfter comment cs

theorem spelled_words {content : Text} (h : Word.cut content = .ok words) (hline : Text.lineEnd ∉ content)
    (number level : Nat) : (Row.words number level words).Spelled where
  lineEnd := by
    intro t ht
    obtain ⟨w, hw, ht⟩ := mem_flatMap.mp ht
    refine Word.lineEnd_not_mem_tokens (fun hmem => hline ?_) ht
    rw [← Word.cut_spells h]
    exact mem_flatten.mpr ⟨w.text, mem_map_of_mem hw, hmem⟩
  bracket := by
    intro t ht hraw b hb hbracket
    obtain ⟨w, hw, ht⟩ := mem_flatMap.mp ht
    by_cases hcomment : w.rule = .comment
    · -- The sign of a comment is punctuation, and its text is raw.
      have hmem := (Word.written_comment hcomment number level).mem t ht
      rw [hraw] at hmem
      rw [Token.category, lexeme_of_isCommentSign (hmem.resolve_right Bool.false_ne_true)]
      exact .inr (.inr rfl)
    · exact ((Word.cut_spec h).2 w hw).category_of_bracket hcomment ht hb hbracket
  split := by
    intro _
    obtain ⟨codes, cs, hsplit, hcodes, hcomment⟩ := Word.tokens_of_cut h number level
    exact ⟨codes, cs, _, hsplit, hcodes, hcomment⟩

theorem spelled_verbatim {text : Text} (h : Text.lineEnd ∉ text) (number level : Nat) :
    (Row.verbatim number level text).Spelled where
  lineEnd := by
    intro t ht
    rw [mem_singleton.mp ht]
    exact h
  bracket := by
    intro t ht hraw
    rw [mem_singleton.mp ht] at hraw
    cases hraw
  split := fun hv => nomatch hv

end Row

/-! ## Neighbours -/

namespace Token

/-- The token `u` may come next after `t`. -/
structure Adjacent (t u : Token) : Prop where
  raw : u.raw → t.isCommentSign ∨ t.isMarker
  comment : t.isCommentSign → u.raw ∨ u.isMarker
  text : t.raw → u.isMarker
  marker : t.isMarker → u.isMarker = t.is Marker.dedent.text

variable {t u : Token}

theorem raw_of_isMarker (h : t.isMarker) : t.raw = false := by
  rw [Bool.eq_false_iff]
  intro hraw
  rw [isMarker_of_raw hraw] at h
  cases h

theorem isCommentSign_of_isMarker (h : t.isMarker) : t.isCommentSign = false := by
  rw [Bool.eq_false_iff]
  intro hsign
  rw [isMarker_of_isCommentSign hsign] at h
  cases h

theorem raw_of_isCommentSign (h : t.isCommentSign) : t.raw = false := by
  rw [isCommentSign, Bool.or_eq_true, is_iff, is_iff] at h
  exact h.elim And.left And.left

theorem IsCode.adjacent (ht : t.IsCode) (hu : u.raw = false) : Adjacent t u := by
  obtain ⟨hraw, hmarker, hsign⟩ := ht
  constructor <;> simp [hu, hraw, hmarker, hsign]

theorem adjacent_text (ht : t.isCommentSign) (hu : u.raw) : Adjacent t u := by
  have hraw := raw_of_isCommentSign ht
  have hmarker := isMarker_of_isCommentSign ht
  constructor <;> simp [hu, ht, hraw, hmarker]

theorem adjacent_end (ht : t.isMarker = false) (hu : u.isMarker) : Adjacent t u := by
  have hraw := raw_of_isMarker hu
  constructor <;> simp [hu, ht, hraw]

theorem adjacent_start (ht : t.isMarker) (hdedent : t.is Marker.dedent.text = false)
    (hu : u.isMarker = false) : Adjacent t u := by
  have hraw := raw_of_isMarker ht
  have hsign := isCommentSign_of_isMarker ht
  constructor <;> simp [hu, ht, hraw, hsign, hdedent]

theorem adjacent_dedent (ht : t.is Marker.dedent.text) (hu : u.isMarker) : Adjacent t u := by
  have hmarker : t.isMarker := isMarker_of_mark ht
  have hraw := raw_of_isMarker hmarker
  have hraw' := raw_of_isMarker hu
  have hsign := isCommentSign_of_isMarker hmarker
  constructor <;> simp [hu, ht, hraw, hraw', hsign]

/-- Markers that end a line: the last one starts the next line. -/
structure EndsLine (ms : List Token) : Prop where
  chain : ms.IsChain Adjacent
  marker : ∀ m ∈ ms, m.isMarker
  last : ∃ m ∈ ms.getLast?, m.is Marker.dedent.text = false

/-- Markers may end any line. -/
theorem chain_line {ts ms : List Token} (hts : ts.IsChain Adjacent)
    (hplain : ∀ t ∈ ts, t.isMarker = false) (hms : EndsLine ms) : (ts ++ ms).IsChain Adjacent := by
  refine isChain_append.mpr ⟨hts, hms.chain, fun t ht u hu => ?_⟩
  exact adjacent_end (hplain t (mem_of_mem_getLast? ht)) (hms.marker u (mem_of_mem_head? hu))

/-- A line may begin behind markers. -/
theorem EndsLine.chain_below {ms ts : List Token} (hms : EndsLine ms) (hts : ts.IsChain Adjacent)
    (hhead : ∀ t ∈ ts.head?, t.isMarker = false) : (ms ++ ts).IsChain Adjacent := by
  refine isChain_append.mpr ⟨hms.chain, hts, fun t ht u hu => ?_⟩
  obtain ⟨m, hm, hdedent⟩ := hms.last
  obtain rfl : m = t := Option.mem_unique hm ht
  exact adjacent_start (hms.marker m (mem_of_mem_getLast? hm)) hdedent (hhead u hu)

end Token

namespace Row

theorem endsLine_singleton (row : Row) {m : Marker} (level : Nat) (depth : Int) (hm : m ≠ .dedent) :
    EndsLine [row.marker m level depth] where
  chain := isChain_singleton _
  marker := by
    simp only [mem_singleton, forall_eq]
    exact isMarker_of_mark (row.marker_is m level depth)
  last := ⟨row.marker m level depth, rfl, is_eq_false_of_is (row.marker_is m level depth) hm.symm⟩

theorem endsLine_closing (row : Row) (level : Nat) : EndsLine (row.closing level) := by
  have hnewline := endsLine_singleton row (m := .newline) level 0 (by decide)
  have hdedent := row.is_dedent_of_mem_dedents level
  have hmarker : ∀ t ∈ row.closing level, t.isMarker := by
    intro t ht
    rcases mem_append.mp ht with ht | ht
    · exact isMarker_of_mark (hdedent t ht)
    · exact hnewline.marker t ht
  refine ⟨?_, hmarker, ?_⟩
  · -- Whatever stands before another marker is a dedent.
    refine List.Pairwise.isChain (pairwise_append.mpr ⟨?_, pairwise_singleton _ _, ?_⟩)
    · refine pairwise_of_forall_mem_list fun t ht u hu => ?_
      exact adjacent_dedent (hdedent t ht) (hmarker u (mem_append_left _ hu))
    · intro t ht u hu
      exact adjacent_dedent (hdedent t ht) (hnewline.marker u hu)
  · obtain ⟨m, hm, hno⟩ := hnewline.last
    refine ⟨m, ?_, hno⟩
    rw [closing, getLast?_append, hm]
    rfl

theorem endsLine_between (a b : Row) : EndsLine (a.between b) := by
  rw [between]
  split
  · exact endsLine_singleton _ _ _ (by split <;> decide)
  · split
    · exact endsLine_singleton _ _ _ (by decide)
    · exact endsLine_closing a b.level

/-- The tokens of a row fit together. -/
theorem Spelled.chain (h : row.Spelled) : row.tokens.IsChain Adjacent := by
  cases hv : row.isVerbatim with
  | true =>
    cases row with
    | words => cases hv
    | verbatim => exact isChain_singleton _
  | false =>
    obtain ⟨codes, cs, comment, hsplit, hcodes, hcomment⟩ := h.split hv
    have hcs : cs.IsChain Adjacent ∧ ∀ t ∈ cs.head?, t.raw = false := by
      cases comment with
      | none => rw [WrittenAfter] at hcomment; simp [hcomment]
      | some c =>
        cases hcomment with
        | bare hsign =>
          exact ⟨isChain_singleton _, by simpa using raw_of_isCommentSign hsign⟩
        | text hsign ht =>
          have hraw := raw_of_isCommentSign hsign
          refine ⟨isChain_pair.mpr (adjacent_text hsign ht), by simpa using hraw⟩
    rw [hsplit]
    refine isChain_append.mpr ⟨?_, hcs.1, fun t ht u hu => ?_⟩
    · refine List.Pairwise.isChain (pairwise_of_forall_mem_list fun t ht u hu => ?_)
      exact (hcodes t ht).1.adjacent (hcodes u hu).1.raw
    · exact (hcodes t (mem_of_mem_getLast? ht)).1.adjacent (hcs.2 u hu)

theorem Sound.head? (h : row.Sound) (us : List Token) :
    ∃ t, (row.tokens ++ us).head? = some t ∧ t.isMarker = false := by
  obtain ⟨t, ts, htokens⟩ : ∃ t ts, row.tokens = t :: ts := by
    cases hv : row.isVerbatim with
    | true =>
      cases row with
      | words => cases hv
      | verbatim => exact ⟨_, _, rfl⟩
    | false =>
      obtain ⟨t, ts, htokens, -⟩ := h.start hv
      exact ⟨t, ts, htokens⟩
  refine ⟨t, by rw [htokens]; rfl, h.plain t ?_⟩
  rw [htokens]
  exact mem_cons_self

theorem chain_row (hsound : ∀ r ∈ row :: rows, r.Sound) (hspelled : ∀ r ∈ row :: rows, r.Spelled) :
    (row.tokens ++ tokensAfter row rows).IsChain Adjacent := by
  induction rows generalizing row with
  | nil =>
    have hplain := (hsound row (mem_singleton.mpr rfl)).plain
    exact chain_line (hspelled row (mem_singleton.mpr rfl)).chain hplain
      (endsLine_closing row 0)
  | cons b rows ih =>
    obtain ⟨hrow, hrows⟩ := forall_mem_cons.mp hsound
    obtain ⟨hrow', hrows'⟩ := forall_mem_cons.mp hspelled
    have hbelow := ih hrows hrows'
    obtain ⟨t, ht, hplain⟩ := (hrows b mem_cons_self).head? (tokensAfter b rows)
    have hmarkers := endsLine_between row b
    rw [tokensAfter, append_assoc]
    -- The last marker of the line above is the one that starts the line below.
    refine isChain_append.mpr ⟨hrow'.chain, ?_, fun u hu v hv => ?_⟩
    · refine hmarkers.chain_below hbelow fun u hu => ?_
      rw [ht] at hu
      exact Option.some.inj hu ▸ hplain
    · refine adjacent_end (hrow.plain u (mem_of_mem_getLast? hu)) ?_
      obtain ⟨m, hm, -⟩ := hmarkers.last
      rw [head?_append_of_ne_nil] at hv
      · exact hmarkers.marker v (mem_of_mem_head? hv)
      · rintro hnil
        rw [hnil] at hm
        cases hm

/-- So do the tokens of all rows. -/
theorem chain_allTokens (hsound : ∀ r ∈ rows, r.Sound) (hspelled : ∀ r ∈ rows, r.Spelled) :
    (allTokens rows).IsChain Adjacent := by
  cases rows with
  | nil => exact isChain_singleton _
  | cons row rows =>
    obtain ⟨t, ht, hplain⟩ := (hsound row mem_cons_self).head? (tokensAfter row rows)
    have hchain := chain_row hsound hspelled
    rw [allTokens, cons_append]
    refine List.IsChain.cons hchain fun u hu => ?_
    rw [ht] at hu
    obtain rfl := Option.some.inj hu
    exact adjacent_start (isMarker_of_mark start_is) rfl hplain

end Row

/-- A token is a marker or stands on a row. -/
theorem Row.mem_allTokens {t : Token} (ht : t ∈ allTokens rows) :
    t.isMarker ∨ ∃ row ∈ rows, t ∈ row.tokens := by
  have hafter : ∀ (a : Row) (rows : List Row), t ∈ Row.tokensAfter a rows →
      t.isMarker ∨ ∃ row ∈ rows, t ∈ row.tokens := by
    intro a rows
    induction rows generalizing a with
    | nil => exact fun ht => .inl ((endsLine_closing a 0).marker t ht)
    | cons b rows ih =>
      intro ht
      rw [Row.tokensAfter, mem_append, mem_append] at ht
      rcases ht with (ht | ht) | ht
      · exact .inl ((endsLine_between a b).marker t ht)
      · exact .inr ⟨b, mem_cons_self, ht⟩
      · obtain hmarker | ⟨row, hrow, ht⟩ := ih b ht
        · exact .inl hmarker
        · exact .inr ⟨row, mem_cons_of_mem _ hrow, ht⟩
  have hstart : Row.start.isMarker := isMarker_of_mark start_is
  cases rows with
  | nil => exact .inl (mem_singleton.mp ht ▸ hstart)
  | cons row rows =>
    rw [allTokens, mem_append, mem_cons] at ht
    rcases ht with (rfl | ht) | ht
    · exact .inl hstart
    · exact .inr ⟨row, mem_cons_self, ht⟩
    · obtain hmarker | ⟨r, hr, ht⟩ := hafter row rows ht
      · exact .inl hmarker
      · exact .inr ⟨r, mem_cons_of_mem _ hr, ht⟩

/-! ## Scanned sources -/

namespace Reading

theorem readLines_forall {P : Row → Prop} {lines : List Text} {s s' : Reading}
    (hread : readLines 1 lines s = .ok () s') (hrows : ∀ row ∈ s.rows, P row)
    (hwords : ∀ line ∈ lines, ∀ number level words,
      Word.cut (content line) = .ok words → P (.words number level words))
    (hraw : ∀ line ∈ lines, ∀ number level unit base text, rawText? unit base line = some text →
      P (.verbatim number level (trimEnd isGap text)))
    (hblank : ∀ number level, P (.verbatim number level [])) : ∀ row ∈ s'.rows, P row := by
  refine readLines_keeps (I := fun _ s => ∀ row ∈ s.rows, P row) ?_ (prefix_refl lines) hrows hread
  intro n line s s' hline hrows hreads
  have hmem := mem_of_getElem? hline
  cases hreads with
  | blank => exact hrows
  | rawBlank => exact hrows
  | @rawLine block text hcontent hblock htext =>
    have hblanks : ∀ row ∈ (blankRows (n + 1) block).reverse, P row := by
      intro row hrow
      rw [mem_reverse, blankRows] at hrow
      split at hrow
      · obtain ⟨i, -, rfl⟩ := mem_map.mp hrow
        exact hblank _ _
      · cases hrow
    refine forall_mem_cons.mpr ⟨hraw line hmem _ _ _ _ _ htext, ?_⟩
    exact forall_mem_append.mpr ⟨hblanks, hrows⟩
  | words hcontent hblock hlevel hfits hcut =>
    exact forall_mem_cons.mpr ⟨hwords line hmem _ _ _ hcut, hrows⟩

theorem content_sublist (line : Text) : (content line).Sublist line :=
  (trimEnd_sublist _ _).trans (dropWhile_sublist _)

theorem lineEnd_not_mem_content (h : Text.lineEnd ∉ line) : Text.lineEnd ∉ content line :=
  fun hmem => h ((content_sublist line).subset hmem)

theorem lineEnd_not_mem_rawText {text : Text} {base : Nat} (htext : rawText? unit base line = some text)
    (h : Text.lineEnd ∉ line) : Text.lineEnd ∉ trimEnd isGap text := by
  have hsub : ∀ b ∈ text, b ∈ line := by
    rw [rawText?, after?] at htext
    split at htext
    · cases htext
    · split at htext
      · cases htext
        exact (drop_sublist ..).subset
      · cases htext
  exact fun hmem => h (hsub _ ((trimEnd_sublist _ text).subset hmem))

end Reading

theorem Text.not_mem_of_mem_pieces {sep : UInt8} {piece : Text} (h : piece ∈ t.pieces sep) : sep ∉ piece := by
  induction t generalizing piece with
  | nil =>
    rw [mem_singleton.mp h]
    exact not_mem_nil
  | cons b t ih =>
    rw [pieces] at h
    by_cases hb : b = sep
    · rw [if_pos hb] at h
      rcases mem_cons.mp h with rfl | h
      · exact not_mem_nil
      · exact ih h
    · rw [if_neg hb] at h
      rcases hpieces : pieces sep t with _ | ⟨first, others⟩
      · exact absurd hpieces (pieces_ne_nil sep t)
      · rw [hpieces] at h ih
        rcases mem_cons.mp h with rfl | h
        · rw [mem_cons, not_or]
          exact ⟨Ne.symm hb, ih mem_cons_self⟩
        · exact ih (mem_cons_of_mem _ h)

theorem lineEnd_not_mem_lines (h : line ∈ source.lines) : Text.lineEnd ∉ line := not_mem_of_mem_pieces h

theorem spelled_of_readLines {s : Reading} (hread : readLines 1 source.lines { unit := unit } = .ok () s) :
    ∀ row ∈ s.rows, row.Spelled := by
  refine readLines_forall hread (fun _ hrow => nomatch hrow) ?_ ?_ ?_
  · intro line hline number level words hcut
    exact spelled_words hcut (lineEnd_not_mem_content (lineEnd_not_mem_lines hline)) _ _
  · intro line hline number level unit base text htext
    exact spelled_verbatim (lineEnd_not_mem_rawText htext (lineEnd_not_mem_lines hline)) _ _
  · exact fun number level => spelled_verbatim not_mem_nil _ _

/-- The tokens of a source are those of rows that are laid out and spelled. -/
theorem scan_spelled {scanned : Scanned} (h : (scan unit source).outcome = .ok scanned) :
    ∃ rows, scanned.tokens = allTokens rows ∧ Laid rows ∧ ∀ row ∈ rows, row.Spelled := by
  obtain ⟨s, hread, rfl⟩ := scan_ok_iff.mp h
  have hsound := sound_of_readLines hread
  refine ⟨s.rows.reverse, rfl, hsound.rows.laid, fun row hrow => ?_⟩
  exact spelled_of_readLines hread row (mem_reverse.mp hrow)

/-- The tokens of a source fit together, one by one. -/
theorem chain_of_scan {scanned : Scanned} (h : (scan unit source).outcome = .ok scanned) :
    scanned.tokens.IsChain Token.Adjacent := by
  obtain ⟨rows, htokens, hlaid, hspelled⟩ := scan_spelled h
  rw [htokens]
  exact chain_allTokens hlaid.sound hspelled

end Offside
