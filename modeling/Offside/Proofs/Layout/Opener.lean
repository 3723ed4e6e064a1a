/-
The line above a raw block.

Such a line is a comment sign or `passthrough` without its white space, which is more than the gaps
between words. Still its first token is the opener, since words start with printable ASCII only.
-/
import Offside.Proofs.Layout.RawBlock

set_option autoImplicit false

namespace Offside

open List Text WordRule

def Token.opensRaw (t : Token) : Bool := t.isCommentSign || t.is "passthrough"

/-! ## White space at the ends of a text -/

variable {b : UInt8} {rest : List Symbol}

namespace Text

variable {b : UInt8} {t a : Text}

def isVisible (b : UInt8) : Bool := 0x21 ≤ b && b ≤ 0x7E

theorem isVisible_of_isNumberPart : ∀ b, isNumberPart b → isVisible b := by decide +kernel

theorem ascii_of_isVisible : ∀ b, isVisible b →
    b < 0x80 ∧ Symbol.isBlank (.scalar (Char.ofNat b.toNat)) = false := by decide +kernel

theorem ascii_of_isGap : ∀ b, isGap b →
    b < 0x80 ∧ Symbol.isBlank (.scalar (Char.ofNat b.toNat)) := by decide +kernel

theorem symbols_cons (hb : b < 0x80) (t : Text) : symbols (b :: t) = .scalar (Char.ofNat b.toNat) :: symbols t := by
  rw [symbols, symbolsAfter, Symbol.decode?_of_lt hb]
  rfl

theorem bytes_ofNat (hb : b < 0x80) : (Symbol.scalar (Char.ofNat b.toNat)).bytes = [b] := by
  have hall : ∀ b : UInt8, b < 0x80 → (Symbol.scalar (Char.ofNat b.toNat)).bytes = [b] := by decide +kernel
  exact hall b hb

theorem le_of_mem_bytes {s : Symbol} (hb : ¬ b < 0x80) (h : symbols (b :: t) = s :: rest) :
    ∀ d ∈ s.bytes, ¬ d < 0x80 := by
  intro d hd hlt
  rw [symbols, symbolsAfter] at h
  split at h
  · next c n hdecode =>
    obtain ⟨rfl, -⟩ := cons.inj h
    have hle := Symbol.le_of_decode? hb hdecode
    have hcode := Symbol.toNat_of_mem_encode hd hlt
    have hd' : d.toNat < 128 := UInt8.lt_iff_toNat_lt.mp hlt
    omega
  · obtain ⟨rfl, -⟩ := cons.inj h
    rw [mem_singleton.mp hd] at hlt
    exact hb hlt

theorem bytes_ne_nil (s : Symbol) : s.bytes ≠ [] := by
  cases s with
  | scalar c => exact String.utf8EncodeChar_ne_nil
  | stray b => exact cons_ne_nil _ _

theorem eq_append_of_symbols {kept : List Symbol} (h : symbols t = kept ++ rest)
    (hkept : kept.flatMap Symbol.bytes = a) (ha : ∀ b ∈ a, b < 0x80) : ∃ t', t = a ++ t' ∧ symbols t' = rest := by
  induction kept generalizing t a with
  | nil =>
    subst hkept
    exact ⟨t, rfl, h⟩
  | cons s kept ih =>
    rw [flatMap_cons] at hkept
    rcases t with _ | ⟨b, t⟩
    · cases h
    by_cases hb : b < 0x80
    · rw [symbols_cons hb] at h
      obtain ⟨rfl, htail⟩ := cons.inj h
      rw [bytes_ofNat hb] at hkept
      subst hkept
      obtain ⟨t', rfl, hrest⟩ := ih htail rfl fun d hd => ha d (mem_cons_of_mem _ hd)
      exact ⟨t', rfl, hrest⟩
    · -- Such a symbol has bytes, and none of them is in the text.
      obtain ⟨d, hd⟩ := exists_mem_of_ne_nil _ (bytes_ne_nil s)
      have hda : d ∈ a := by
        rw [← hkept]
        exact mem_append_left _ hd
      exact absurd (ha d hda) (le_of_mem_bytes hb h d hd)

theorem trim_dropWhile (t : Text) : trim (t.dropWhile isGap) = trim t := by
  induction t with
  | nil => rfl
  | cons b t ih =>
    by_cases hb : isGap b
    · obtain ⟨hascii, hblank⟩ := ascii_of_isGap b hb
      rw [dropWhile_cons_of_pos hb, ih]
      conv_rhs => rw [trim, symbols_cons hascii, dropWhile_cons_of_pos hblank]
      rfl
    · rw [dropWhile_cons_of_neg hb]

/-- What is trimmed behind a visible start is white space. -/
theorem eq_trim_append (hb : isVisible b) (htrim : trim (b :: t) = a) (ha : ∀ d ∈ a, d < 0x80) :
    ∃ t', b :: t = a ++ t' ∧ ∀ s ∈ symbols t', s.isBlank := by
  obtain ⟨hascii, hblank⟩ := ascii_of_isVisible b hb
  have hstart : (symbols (b :: t)).dropWhile Symbol.isBlank = symbols (b :: t) := by
    rw [symbols_cons hascii]
    exact dropWhile_cons_of_neg (by rw [hblank]; exact Bool.false_ne_true)
  rw [trim, hstart] at htrim
  have hsplit : symbols (b :: t) = ((symbols (b :: t)).reverse.dropWhile Symbol.isBlank).reverse ++
      ((symbols (b :: t)).reverse.takeWhile Symbol.isBlank).reverse := by
    rw [← reverse_append, takeWhile_append_dropWhile, reverse_reverse]
  obtain ⟨t', heq, hrest⟩ := eq_append_of_symbols hsplit htrim ha
  refine ⟨t', heq, fun s hs => ?_⟩
  rw [hrest, mem_reverse] at hs
  exact mem_takeWhile_imp hs

theorem not_continuesWord_of_blank (h : ∀ s ∈ symbols t, s.isBlank) :
    ∀ b ∈ t.head?, continuesWord b = false := by
  rcases t with _ | ⟨b, t⟩
  · intro b hb
    cases hb
  · intro d hd
    obtain rfl := Option.some.inj hd
    rw [Bool.eq_false_iff]
    intro hword
    have hvisible := isVisible_of_isNumberPart b (isNumberPart_of_continuesWord hword)
    obtain ⟨hlt, hno⟩ := ascii_of_isVisible b hvisible
    rw [symbols_cons hlt] at h
    rw [h _ mem_cons_self] at hno
    cases hno

end Text

/-! ## The first word of a line -/

namespace WordRule

/-- Words start with printable characters. -/
theorem isVisible_of_opens {rule : WordRule} (h : rule.opens b) (hgap : rule ≠ .gap) :
    isVisible b := by
  have hword : startsWord b → isVisible b := fun hb =>
    isVisible_of_isNumberPart b (isNumberPart_of_continuesWord (continuesWord_of_startsWord hb))
  have hsigns : (Text.shortSigns.all isVisible) := rfl
  cases rule with
  | gap => exact absurd rfl hgap
  | comment | string | character =>
    obtain rfl := beq_iff_eq.mp h
    rfl
  | comparator => exact hword (opens_name h)
  | number => exact isVisible_of_isNumberPart b (isNumberPart_of_isDigit h)
  | name => exact hword h
  | operator => exact all_eq_true.mp hsigns b (contains_iff_mem.mp (opens_symbol h))
  | symbol => exact all_eq_true.mp hsigns b (contains_iff_mem.mp h)

end WordRule

namespace Word

variable {t : Text} {words : List Word}

/-- Gaps before the first word have no tokens. -/
theorem cut_dropWhile (h : cut t = .ok words) : ∃ rest, cut (t.dropWhile isGap) = .ok rest ∧
      ∀ line level, words.flatMap (Word.tokens line level) = rest.flatMap (Word.tokens line level) := by
  rcases t with _ | ⟨b, t⟩
  · exact ⟨words, h, fun _ _ => rfl⟩
  by_cases hb : isGap b
  · obtain ⟨rule, n, rest, hfirst, hrest, rfl⟩ := cut_cons h
    have hgap : first? (b :: t) = some (.gap, ((b :: t).takeWhile isGap).length) := by
      have hpos : decide (0 < WordRule.length .gap (b :: t)) := by
        rw [WordRule.length, takeWhile_cons_of_pos hb]
        rfl
      rw [first?, WordRule.all,
        find?_cons_of_pos (p := fun rule : WordRule => decide (0 < rule.length (b :: t))) hpos]
      rfl
    have hdrop : (b :: t).drop ((b :: t).takeWhile isGap).length = (b :: t).dropWhile isGap := by
      nth_rewrite 2 [← takeWhile_append_dropWhile (p := isGap) (l := b :: t)]
      exact drop_left
    rw [hgap] at hfirst
    cases hfirst
    refine ⟨rest, ?_, fun line level => ?_⟩
    · rw [← hdrop]
      exact hrest
    · rw [flatMap_cons, tokens_eq_nil rfl, nil_append]
  · rw [dropWhile_cons_of_neg hb]
    exact ⟨words, h, fun _ _ => rfl⟩

theorem first?_passthrough {u : Text} (hu : ∀ b ∈ u.head?, continuesWord b = false) :
    first? (("passthrough" : Text) ++ u) = some (.name, ("passthrough" : Text).length) := by
  have htake : (("passthrough" : Text) ++ u).takeWhile continuesWord = ("passthrough" : Text) := by
    have hword : ∀ b ∈ ("passthrough" : Text), continuesWord b :=
      all_eq_true.mp rfl
    rw [takeWhile_append_of_pos hword]
    rcases u with _ | ⟨b, u⟩
    · rfl
    · have hb := hu b rfl
      rw [takeWhile_cons_of_neg (by rw [hb]; exact Bool.false_ne_true), append_nil]
  have hname : WordRule.length .name (("passthrough" : Text) ++ u) = ("passthrough" : Text).length := by
    rw [WordRule.length, htake]
    rfl
  have hbefore : ∀ rule ∈ [WordRule.gap, .comment, .string, .character, .comparator, .number],
      rule.length (("passthrough" : Text) ++ u) = 0 := by
    simp only [forall_mem_cons]
    exact ⟨rfl, rfl, rfl, rfl, rfl, rfl, fun _ h => absurd h not_mem_nil⟩
  -- The rules before the one for names do not apply.
  have hrules : WordRule.all = [.gap, .comment, .string, .character, .comparator, .number] ++
      [.name, .operator, .symbol] := rfl
  have hnone : [WordRule.gap, .comment, .string, .character, .comparator, .number].find?
      (fun rule => decide (0 < rule.length (("passthrough" : Text) ++ u))) = none := by
    rw [find?_eq_none]
    intro rule hrule
    rw [hbefore rule hrule]
    decide
  have hpos : decide (0 < WordRule.length .name (("passthrough" : Text) ++ u)) := by
    rw [hname]
    decide
  rw [first?, hrules, find?_append, hnone, Option.none_or,
    find?_cons_of_pos (p := fun rule : WordRule =>
      decide (0 < rule.length (("passthrough" : Text) ++ u))) hpos, Option.map_some, hname]

theorem IsCut.opensRaw_of_hash {w : Word} {rest : Text} (h : w.IsCut) (hgap : w.rule ≠ .gap)
    (htext : w.text = '#'.toUInt8 :: rest) (line level : Nat) :
    ∃ t ts, w.tokens line level = t :: ts ∧ t.opensRaw := by
  have hrule : w.rule = .comment := by
    by_contra hno
    obtain ⟨b, rest', hb, hstarts⟩ := h.starts hgap hno
    obtain rfl : '#'.toUInt8 = b := (cons.inj (htext.symm.trans hb)).1
    revert hstarts
    decide
  rw [tokens, hrule]
  refine ⟨_, _, rfl, ?_⟩
  rw [Token.opensRaw, Token.isCommentSign, Token.is, Token.is]
  rcases commentSign_cases w.text with hsign | hsign <;> rw [hsign] <;> rfl

theorem ascii_of_opener {opener : Text}
    (h : opener ∈ (["#", "#.", "passthrough", "passthrough:"] : List Text)) : ∀ d ∈ opener, d < 0x80 := by
  have hall : ∀ opener ∈ (["#", "#.", "passthrough", "passthrough:"] : List Text),
      (opener.all fun d => decide (d < 0x80)) = true := by decide
  exact fun d hd => of_decide_eq_true (all_eq_true.mp (hall opener h) d hd)

/-- The first token of such a line is the opener. -/
theorem opensRaw_tokens {content : Text} (hopens : Reading.opensRaw content)
    (hcut : cut content = .ok words) (line level : Nat) :
    ∃ t ts, words.flatMap (Word.tokens line level) = t :: ts ∧ t.opensRaw := by
  obtain ⟨rest, hrest, htokens⟩ := cut_dropWhile hcut
  rw [htokens]
  rw [Reading.opensRaw, contains_iff_mem, ← trim_dropWhile] at hopens
  rcases hstart : content.dropWhile isGap with _ | ⟨b, t⟩
  · rw [hstart] at hopens
    exact absurd hopens (by decide)
  rw [hstart] at hrest hopens
  have hb : isGap b = false := by
    have hhead := head_dropWhile_not isGap (l := content) (by rw [hstart]; exact cons_ne_nil _ _)
    simpa only [hstart, head_cons] using hhead
  obtain ⟨rule, n, ws, hfirst, -, rfl⟩ := cut_cons hrest
  -- The first word is no gap, so it starts with the first byte of the opener.
  have hword : IsCut ⟨rule, (b :: t).take n⟩ := ⟨b, t, n, hfirst, rfl⟩
  obtain ⟨m, rfl⟩ : ∃ m, n = m + 1 := ⟨n - 1, by have := (first?_spec hfirst).2; omega⟩
  have hgap : rule ≠ .gap := by
    intro hrule
    rw [hword.all_isGap hrule b mem_cons_self] at hb
    cases hb
  have hvisible := isVisible_of_opens (opens_of_first hfirst) hgap
  obtain ⟨t', heq, hblank⟩ := eq_trim_append hvisible rfl (ascii_of_opener hopens)
  have hafter := not_continuesWord_of_blank hblank
  suffices hfirstWord : ∃ u us, Word.tokens line level ⟨rule, (b :: t).take (m + 1)⟩ = u :: us ∧
      u.opensRaw = true by
    obtain ⟨u, us, hu, hopener⟩ := hfirstWord
    exact ⟨u, us ++ ws.flatMap (Word.tokens line level), by rw [flatMap_cons, hu]; rfl, hopener⟩
  have hname : ∀ u, b :: t = ("passthrough" : Text) ++ u →
      (∀ d ∈ u.head?, continuesWord d = false) →
      ∃ v vs, Word.tokens line level ⟨rule, (b :: t).take (m + 1)⟩ = v :: vs ∧ v.opensRaw := by
    intro u hu hend
    rw [hu, first?_passthrough hend] at hfirst
    obtain ⟨rfl, hn⟩ := Prod.mk.inj (Option.some.inj hfirst)
    rw [hu, ← hn, take_left]
    exact ⟨_, _, rfl, rfl⟩
  simp only [mem_cons, not_mem_nil, or_false] at hopens
  rcases hopens with hopener | hopener | hopener | hopener <;> rw [hopener] at heq
  · obtain rfl : b = '#'.toUInt8 := (cons.inj heq).1
    exact hword.opensRaw_of_hash hgap rfl line level
  · obtain rfl : b = '#'.toUInt8 := (cons.inj heq).1
    exact hword.opensRaw_of_hash hgap rfl line level
  · exact hname t' heq hafter
  · have hcolon : ("passthrough:" : Text) = ("passthrough" : Text) ++ [':'.toUInt8] := rfl
    rw [hcolon, append_assoc] at heq
    refine hname (':'.toUInt8 :: t') heq ?_
    rintro _ ⟨⟩
    decide

end Word

/-! ## Rows above raw blocks -/

namespace Row

def Opens (row : Row) : Prop := ∃ t ts, row.tokens = t :: ts ∧ t.opensRaw

def Heads (a b : Row) : Prop := a.isVerbatim = false → b.isVerbatim → a.Opens

end Row

namespace Reading

variable {number : Nat} {line : Text} {s s' : Reading}

/-- Which rows open raw blocks, before another line is read. -/
structure Headed (s : Reading) : Prop where
  last : s.raw.isSome → ∀ row ∈ s.rows.head?, row.isVerbatim = false → row.Opens
  chain : s.rows.IsChain fun b a => Row.Heads a b

/-- A line that is read keeps openers above their blocks. -/
theorem Headed.step (h : s.Headed) (hreads : Reads number line s s') : s'.Headed := by
  cases hreads with
  | blank => exact h
  | rawBlank hblank hraw => exact ⟨fun _ => h.last (by rw [hraw]; rfl), h.chain⟩
  | @rawLine block text hcontent hraw htext =>
    have hnew : ∀ row ∈ Row.verbatim number (block.base + 1) (trimEnd isGap text) ::
        (blankRows number block).reverse, row.isVerbatim := by
      refine forall_mem_cons.mpr ⟨rfl, fun row hrow => ?_⟩
      exact isVerbatim_of_mem_blankRows (mem_reverse.mp hrow)
    refine ⟨?_, isChain_append.mpr ⟨?_, h.chain, ?_⟩⟩
    · rintro - _ ⟨⟩ hv
      cases hv
    · refine List.Pairwise.isChain (pairwise_of_forall_mem_list fun b hb a ha hv => ?_)
      rw [hnew a ha] at hv
      cases hv
    · exact fun b hb a ha hv _ => h.last (by rw [hraw]; rfl) a ha hv
  | @words level words detected hcontent hraw hlevel hfits hwords =>
    refine ⟨?_, List.IsChain.cons h.chain fun a ha _ hv => nomatch hv⟩
    rintro hopens _ ⟨⟩ -
    by_cases hcase : opensRaw (content line)
    · exact Word.opensRaw_tokens hcase hwords number level
    · rw [if_neg hcase] at hopens
      cases hopens

/-- In all rows, what stands above a raw block opens it. -/
theorem headed_of_readLines {unit : Text} {lines : List Text}
    (hread : readLines 1 lines { unit := unit } = .ok () s) : s.rows.reverse.IsChain Row.Heads := by
  have hstart : Headed { unit := unit } := ⟨fun _ _ hrow => (nomatch hrow), isChain_nil⟩
  have hend := readLines_keeps (I := fun _ s => s.Headed) (fun _ h hreads => h.step hreads)
    (prefix_refl lines) hstart hread
  exact isChain_reverse.mpr hend.chain

end Reading

end Offside
