/-
The tokens of a source from their texts.

A stream of bare words finds levels and lines from the markers. The levels always agree with those
of a scanned source, and the lines do when each row is on the line below the one before it.
-/
import Offside.Proofs.Context

set_option autoImplicit false

open List

namespace Offside

/-! ## Counting lines -/

namespace Token

variable {t : Token} {ts us : List Token} {line level : Nat}

def endsLine (t : Token) : Bool := t.is Marker.indent.text || t.is Marker.newline.text

/-- From a line on, every token is on the line that the markers before it have counted. -/
def CountsLines : Nat → List Token → Prop
  | _, [] => True
  | line, t :: ts => t.line = line ∧ CountsLines (if t.endsLine then line + 1 else line) ts

theorem countsLines_append (hts : ∀ t ∈ ts, t.endsLine = false ∧ t.line = line) (hus : CountsLines line us) :
    CountsLines line (ts ++ us) := by
  induction ts with
  | nil => exact hus
  | cons t ts ih =>
    obtain ⟨⟨hend, hline⟩, hts⟩ := forall_mem_cons.mp hts
    refine ⟨hline, ?_⟩
    rw [hend]
    exact ih hts

theorem endsLine_of_isMarker (h : t.isMarker = false) : t.endsLine = false := by
  rw [Bool.eq_false_iff] at h ⊢
  intro hend
  rw [endsLine, Bool.or_eq_true] at hend
  rcases hend with hend | hend
  · exact h (isMarker_of_mark hend)
  · exact h (isMarker_of_mark hend)

/-- Tokens that are at the levels and on the lines that markers lead to are found again from their
texts. -/
theorem Tracks.tokensOfWords {p : Place} (h : Tracks p ts) (hlevel : p.level = level) (hp : p.inRaw = false)
    (hraw : ∀ t ∈ ts, t.raw = false) (hlines : CountsLines line ts) :
    Stream.tokensOfWords line level (ts.map Token.text) = ts := by
  induction ts generalizing p line level with
  | nil => rfl
  | cons t ts ih =>
    obtain ⟨hcode, hraw⟩ := forall_mem_cons.mp hraw
    obtain ⟨htLevel, hpos, hdepth, -, htracks⟩ := h
    obtain ⟨htLine, hlines⟩ := hlines
    have hopen : (p.move t ts.head?).inRaw = false := by
      have hnext : (ts.head?.map Token.raw).getD false = false := by
        cases ts with
        | nil => rfl
        | cons u ts => exact hraw u mem_cons_self
      simp [Place.move, hp, hnext]
    have his : ∀ m : Marker, t.is m.text ↔ t.text = m.text := by
      intro m
      rw [is_iff, hcode]
      exact ⟨fun h => h.2, fun h => ⟨rfl, h⟩⟩
    -- The text of a marker alone says how the level changes.
    have hmove : (p.move t ts.head?).level = ((if t.text = Marker.indent.text then level + 1
        else if t.text = Marker.dedent.text then level - 1 else level : Nat) : Int) := by
      change p.level + balance [t] = _
      change t.level = p.level + balance [t] at htLevel
      split
      · next hindent => rw [balance_indent ((his .indent).mpr hindent), hlevel, Int.natCast_succ]
      split
      · next hdedent =>
        rw [balance_dedent ((his .dedent).mpr hdedent)] at htLevel ⊢
        omega
      · next hindent hdedent =>
        rw [balance_other (Bool.eq_false_iff.mpr fun h => hindent ((his .indent).mp h))
          (Bool.eq_false_iff.mpr fun h => hdedent ((his .dedent).mp h)), hlevel, Int.add_zero]
    have hends : t.endsLine ↔ t.text = Marker.indent.text ∨ t.text = Marker.newline.text := by
      rw [endsLine, Bool.or_eq_true, his, his]
    rw [if_congr hends rfl rfl] at hlines
    rw [hopen, if_neg Bool.false_ne_true] at hdepth
    rw [map_cons, Stream.tokensOfWords]
    rw [ih htracks hmove hopen hraw hlines, ← hmove, ← htLevel, ← htLine]
    cases t
    cases hcode
    cases hdepth
    rfl

end Token

namespace Row

variable {a b row : Row} {rows : List Row} {us : List Token}

open Token (CountsLines countsLines_append)

theorem countsLines_marker (row : Row) {m : Marker} (hm : m = .indent ∨ m = .newline) (level : Nat) (depth : Int)
    (hus : CountsLines (row.line + 1) us) : CountsLines row.line (row.marker m level depth :: us) := by
  have hend : (row.marker m level depth).endsLine := by rcases hm with rfl | rfl <;> rfl
  refine ⟨rfl, ?_⟩
  rw [hend]
  exact hus

theorem countsLines_closing (row : Row) (level : Nat) (hus : CountsLines (row.line + 1) us) :
    CountsLines row.line (row.closing level ++ us) := by
  rw [closing, append_assoc]
  refine countsLines_append (fun t ht => ?_) (row.countsLines_marker (.inr rfl) _ _ hus)
  obtain ⟨i, -, rfl⟩ := mem_map.mp ht
  exact ⟨rfl, rfl⟩

theorem countsLines_between (a b : Row) (hus : CountsLines (a.line + 1) us) :
    CountsLines a.line (a.between b ++ us) := by
  rw [between]
  split
  · refine a.countsLines_marker ?_ _ _ hus
    split
    · exact .inr rfl
    · exact .inl rfl
  split
  · exact a.countsLines_marker (.inl rfl) _ _ hus
  · exact a.countsLines_closing _ hus

theorem Sound.countsLines (h : row.Sound) (hus : CountsLines row.line us) : CountsLines row.line (row.tokens ++ us) :=
  countsLines_append (fun t ht => ⟨Token.endsLine_of_isMarker (h.plain t ht), (mem_tokens ht).2.1⟩) hus

/-- Rows on lines one below the other count their lines. -/
theorem countsLines_tokensAfter (hchain : (a :: rows).IsChain fun a b => b.line = a.line + 1)
    (hsound : ∀ row ∈ rows, row.Sound) : CountsLines a.line (tokensAfter a rows) := by
  induction rows generalizing a with
  | nil =>
    rw [tokensAfter, ← append_nil (a.closing 0)]
    exact a.countsLines_closing 0 trivial
  | cons b rows ih =>
    obtain ⟨hline, hchain⟩ := isChain_cons_cons.mp hchain
    obtain ⟨hb, hsound⟩ := forall_mem_cons.mp hsound
    rw [tokensAfter, append_assoc]
    refine a.countsLines_between b ?_
    rw [← hline]
    exact hb.countsLines (ih hchain hsound)

def Numbered : List Row → Prop
  | [] => True
  | row :: rows => row.line = rows.length + 1 ∧ Numbered rows

theorem Numbered.chain (h : Numbered rows) : rows.reverse.IsChain fun a b => b.line = a.line + 1 := by
  rw [isChain_reverse]
  induction rows with
  | nil => exact isChain_nil
  | cons row rows ih =>
    cases rows with
    | nil => exact isChain_singleton _
    | cons below rows =>
      refine isChain_cons_cons.mpr ⟨?_, ih h.2⟩
      rw [h.1, h.2.1, length_cons]

theorem Numbered.first (h : Numbered rows) : ∀ row ∈ rows.reverse.head?, row.line = 1 := by
  rw [head?_reverse]
  induction rows with
  | nil =>
    intro row hrow
    cases hrow
  | cons row rows ih =>
    intro last hlast
    cases rows with
    | nil =>
      obtain rfl := Option.some.inj hlast
      exact h.1
    | cons below rows => exact ih h.2 last hlast

/-- So do all tokens. -/
theorem countsLines_allTokens (h : Numbered rows) (hsound : ∀ row ∈ rows.reverse, row.Sound) :
    CountsLines 1 (allTokens rows.reverse) := by
  have hchain := h.chain
  have hfirst := h.first
  cases hrows : rows.reverse with
  | nil => exact ⟨rfl, trivial⟩
  | cons a later =>
    rw [hrows] at hchain hfirst hsound
    obtain ⟨ha, hsound⟩ := forall_mem_cons.mp hsound
    have hcounts := ha.countsLines (countsLines_tokensAfter hchain hsound)
    rw [hfirst a rfl] at hcounts
    exact ⟨rfl, hcounts⟩

end Row

/-! ## Sources without gaps -/

namespace Reading

variable {unit line : Text} {lines : List Text} {number : Nat} {s s' : Reading}

def BlanksLast (lines : List Text) : Prop :=
  lines.Pairwise fun l l' => (content l).isEmpty = true → (content l').isEmpty = true

instance : DecidablePred BlanksLast := fun lines => inferInstanceAs (Decidable (lines.Pairwise _))

/-- Each line so far has a row, or there was a blank line and no row comes any more. -/
structure Gapless (lines : List Text) (number : Nat) (s : Reading) : Prop where
  pos : 1 ≤ number
  rows : (∀ row ∈ s.rows, row.isVerbatim = false) → Row.Numbered s.rows ∧ (s.rows.length + 1 = number ∨
    ∀ k l, number ≤ k + 1 → lines[k]? = some l → (content l).isEmpty)

theorem BlanksLast.below (h : BlanksLast lines) {i k : Nat} {l : Text} (hline : lines[i]? = some line)
    (hblank : (content line).isEmpty) (hk : i < k) (hl : lines[k]? = some l) : (content l).isEmpty := by
  obtain ⟨hi, rfl⟩ := List.getElem?_eq_some_iff.mp hline
  obtain ⟨hk', rfl⟩ := List.getElem?_eq_some_iff.mp hl
  exact pairwise_iff_getElem.mp h i k hi hk' hk hblank

/-- A line that is read leaves no gap, unless only blank ones follow. -/
theorem Gapless.step (h : Gapless lines number s) (hlast : BlanksLast lines) (hline : lines[number - 1]? = some line)
    (hreads : Reads number line s s') : Gapless lines (number + 1) s' where
  pos := Nat.le_add_left ..
  rows := by
    have hpos := h.pos
    cases hreads with
    | blank hblank hraw | rawBlank hblank hraw =>
      intro hwords
      exact ⟨(h.rows hwords).1, .inr fun k l hk => hlast.below hline hblank (by omega)⟩
    | rawLine =>
      intro hwords
      cases hwords _ mem_cons_self
    | words hcontent =>
      intro hwords
      obtain ⟨hnumbered, hrest⟩ := h.rows (forall_mem_cons.mp hwords).2
      have hnumber := hrest.resolve_right fun hblank => by
        rw [hblank (number - 1) line (by omega) hline] at hcontent
        cases hcontent
      exact ⟨⟨hnumber.symm, hnumbered⟩, .inl (congrArg (· + 1) hnumber)⟩

theorem numbered_of_readLines (hlast : BlanksLast lines) (hread : readLines 1 lines { unit := unit } = .ok () s)
    (hwords : ∀ row ∈ s.rows, row.isVerbatim = false) : Row.Numbered s.rows := by
  have hstart : Gapless lines 1 { unit := unit } := ⟨Nat.le_refl 1, fun _ => ⟨trivial, .inl rfl⟩⟩
  have hend := readLines_keeps (I := fun n s => Gapless lines (n + 1) s)
    (fun hline h hreads => h.step hlast hline hreads)
    (prefix_refl lines) hstart hread
  exact (hend.rows hwords).1

end Reading

/-- The texts of tokens without raw ones give back the tokens, if below a blank line all lines are
blank. -/
theorem ofWords_scan {unit source : Text} {scanned : Scanned} (hscan : (scan unit source).outcome = .ok scanned)
    (hraw : ∀ t ∈ scanned.tokens, t.raw = false) (hlast : Reading.BlanksLast source.lines) :
    Stream.ofWords (scanned.tokens.map Token.text) = Stream.ofTokens scanned.tokens := by
  obtain ⟨s, hread, rfl⟩ := scan_ok_iff.mp hscan
  have hlaid := (Reading.sound_of_readLines hread).rows.laid
  have hwords : ∀ row ∈ s.rows, row.isVerbatim = false := by
    intro row hrow
    cases row with
    | words => rfl
    | verbatim number level text =>
      obtain ⟨before, after, hrows⟩ := append_of_mem (mem_reverse.mpr hrow)
      rw [hrows] at hlaid hraw
      obtain ⟨ts, hall, -⟩ := hlaid.exists_at
      rw [hall] at hraw
      cases hraw _ (mem_append_right _ (mem_append_left _ (mem_singleton.mpr rfl)))
  have hnumbered := Reading.numbered_of_readLines hlast hread hwords
  rw [Stream.ofWords, hlaid.tracks.tokensOfWords rfl rfl hraw (Row.countsLines_allTokens hnumbered hlaid.sound)]

/-- Two blocks that end on one line, and a blank line at the end. -/
theorem ofWords_scan_blocks :
    ∃ scanned, (scan [] ("if a:\n  while b:\n    c()\nd()\n\n" : String)).outcome = .ok scanned ∧
      Stream.ofWords (scanned.tokens.map Token.text) = Stream.ofTokens scanned.tokens := by
  generalize hsource : (("if a:\n  while b:\n    c()\nd()\n\n" : String) : Text) = source
  have hraw : ((scan [] source).outcome.toOption.map fun scanned => scanned.tokens.all fun t => !t.raw) =
      some true := by
    rw [← hsource]
    decide +kernel
  have hlast : Reading.BlanksLast source.lines := by
    rw [← hsource]
    decide +kernel
  cases hscan : (scan [] source).outcome with
  | error e => rw [hscan] at hraw; cases hraw
  | ok scanned =>
    rw [hscan] at hraw
    refine ⟨scanned, rfl, ofWords_scan hscan (fun t ht => ?_) hlast⟩
    simpa using all_eq_true.mp (Option.some.inj hraw) t ht

end Offside
