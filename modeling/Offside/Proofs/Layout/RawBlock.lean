/-
Blank lines in raw blocks.

A blank line leaves a row only in a raw block, and only once another line of the block comes after
it. So a blank row stands below another row of its block (`Row.Fills`).
-/
import Offside.Proofs.Layout.Line

set_option autoImplicit false

namespace Offside

open List Text

variable {a b : Row} {unit : Text} {rows : List Row} {block : RawBlock} {us : List Token}

namespace Row

def isBlank : Row → Bool
  | words .. => false
  | verbatim _ _ text => text.isEmpty

def Fills (a b : Row) : Prop := b.isBlank → a.isVerbatim

theorem fills_of_filled (a : Row) (hb : b.isBlank = false) : Fills a b := by
  simp [Fills, hb]

end Row

variable {row : Row}

namespace Reading

variable {number : Nat} {line : Text} {lines : List Text} {s s' : Reading}

/-- A raw line that is not blank has a text. -/
theorem trimEnd_rawText_ne_nil {text : Text} {base : Nat} (hindent : unit.Leading)
    (hcontent : (content line).isEmpty = false) (htext : rawText? unit base line = some text) :
    trimEnd isGap text ≠ [] := by
  have hline : line = repeated (base + 1) unit ++ text := by
    rw [rawText?, after?] at htext
    split at htext
    · cases htext
    · split at htext
      · next hprefix =>
        cases htext
        obtain ⟨rest, rfl⟩ := List.isPrefixOf_iff_prefix.mp hprefix
        rw [drop_left]
      · cases htext
  intro hempty
  -- Then the whole line is made of gaps, and it is blank.
  have hgaps : ∀ b ∈ text, isGap b := by
    rw [trimEnd, reverse_eq_nil_iff, dropWhile_eq_nil_iff] at hempty
    exact fun b hb => hempty b (mem_reverse.mpr hb)
  have hblank : (content line).isEmpty := by
    rw [content_isEmpty_iff, hline]
    refine forall_mem_append.mpr ⟨fun b hb => ?_, hgaps⟩
    obtain ⟨u, hu, hb⟩ := mem_flatten.mp hb
    rw [eq_of_mem_replicate hu] at hb
    rw [isGap, hindent b hb, Bool.true_or]
  rw [hcontent] at hblank
  cases hblank

/-- Where the blank rows are, before another line is read. -/
structure Filled (s : Reading) : Prop where
  unit : s.unit.Leading
  chain : s.rows.IsChain fun b a => Row.Fills a b

theorem leading_unitAt (h : s.unit.Leading) (line : Text) :
    Leading (s.unitAt line) := by
  rw [unitAt]
  split
  · exact leading_indentation line
  · exact h

theorem isVerbatim_of_mem_blankRows (h : row ∈ blankRows number block) : row.isVerbatim := by
  rw [blankRows] at h
  split at h
  · obtain ⟨i, -, rfl⟩ := mem_map.mp h
    rfl
  · cases h

theorem Filled.rawLine (h : s.Filled) (hraw : RawFits (some block) s.rows.head?)
    (hverbatim : row.isVerbatim) (hfilled : row.isBlank = false) :
    (row :: (blankRows number block).reverse ++ s.rows).IsChain fun b a => Row.Fills a b := by
  obtain ⟨last, hlast, hstarted, -⟩ := hraw
  have hnew : ∀ r ∈ row :: (blankRows number block).reverse, r.isVerbatim := by
    refine forall_mem_cons.mpr ⟨hverbatim, fun r hr => ?_⟩
    exact isVerbatim_of_mem_blankRows (mem_reverse.mp hr)
  refine isChain_append.mpr ⟨?_, h.chain, fun b hb a ha => ?_⟩
  · exact List.Pairwise.isChain (pairwise_of_forall_mem_list fun b hb a ha _ => hnew a ha)
  · obtain rfl : last = a := Option.mem_unique hlast ha
    cases hblock : block.started with
    | true =>
      rw [hblock] at hstarted
      exact fun _ => hstarted
    | false =>
      -- The block starts here, so no blank line has been counted for it.
      have hnone : blankRows number block = [] := by
        rw [blankRows, hblock, if_neg Bool.false_ne_true]
      rw [hnone] at hb
      cases hb
      exact Row.fills_of_filled last hfilled

/-- A line that is read leaves blank rows below rows of their block. -/
theorem Filled.step (h : s.Filled) (hraw : RawFits s.raw s.rows.head?) (hreads : Reads number line s s') :
    s'.Filled := by
  have hunit := leading_unitAt h.unit line
  cases hreads with
  | blank => exact h
  | rawBlank => exact ⟨h.unit, h.chain⟩
  | @rawLine block text hcontent hblock htext =>
    rw [hblock] at hraw
    have hfilled : Row.isBlank (.verbatim number (block.base + 1) (trimEnd isGap text)) = false :=
      isEmpty_eq_false_iff.mpr (trimEnd_rawText_ne_nil hunit hcontent htext)
    exact ⟨hunit, h.rawLine hraw rfl hfilled⟩
  | words => exact ⟨hunit, List.IsChain.cons h.chain fun a _ => Row.fills_of_filled a rfl⟩

/-- So it is for all rows. -/
theorem fills_of_readLines {source : List Text} (hindent : unit.Leading)
    (hread : readLines 1 source { unit := unit } = .ok () s) : s.rows.reverse.IsChain Row.Fills := by
  have hstart : Filled { unit := unit } := ⟨hindent, isChain_nil⟩
  have hend := readLines_keeps (I := fun n s => s.Filled ∧ s.Sound source (n + 1))
    (fun hline h hreads => ⟨h.1.step h.2.raw hreads, h.2.step hline hreads⟩) (prefix_refl source)
    ⟨hstart, sound_start source unit⟩ hread
  exact isChain_reverse.mpr hend.1.chain

end Reading

/-! ## The first token of a raw block -/

namespace Token

def Opens (t u : Token) : Prop := t.is Marker.indent.text → u.raw → u.text ≠ []

theorem isChain_opens_append {ts : List Token} (hts : ∀ t ∈ ts, t.is Marker.indent.text = false)
    (hus : us.IsChain Opens) : (ts ++ us).IsChain Opens := by
  have hno : ∀ t ∈ ts, ∀ u, Opens t u := fun t ht u hindent => by
    rw [hts t ht] at hindent
    cases hindent
  refine isChain_append.mpr ⟨?_, hus, fun t ht u _ => hno t (mem_of_mem_getLast? ht) u⟩
  exact List.Pairwise.isChain (pairwise_of_forall_mem_list fun t ht u _ => hno t ht u)

end Token

namespace Row

open Token (Opens isChain_opens_append)

theorem is_indent_of_mem_tokens (h : row.Sound) : ∀ t ∈ row.tokens, t.is Marker.indent.text = false :=
  fun t ht => Token.is_eq_false_of_isMarker (h.plain t ht) .indent

theorem is_indent_of_mem_closing {level : Nat} : ∀ t ∈ row.closing level, t.is Marker.indent.text = false := by
  intro t ht
  rcases mem_append.mp ht with ht | ht
  · obtain ⟨i, -, rfl⟩ := mem_map.mp ht
    rfl
  · rw [mem_singleton.mp ht]
    rfl

/-- The marker between two rows may be an indent, and then it opens a block or a raw block. -/
theorem opens_between (hb : b.Sound) (hfills : Fills a b) (hus : (b.tokens ++ us).IsChain Opens) :
    (a.between b ++ (b.tokens ++ us)).IsChain Opens := by
  have hone : ∀ m : Token, (∀ u ∈ (b.tokens ++ us).head?, Opens m u) →
      ([m] ++ (b.tokens ++ us)).IsChain Opens := fun m hm => List.IsChain.cons hus hm
  rw [between]
  by_cases hverbatim : b.isVerbatim
  · rw [if_pos hverbatim]
    refine hone _ fun u hu hindent _ hempty => ?_
    cases b with
    | words => cases hverbatim
    | verbatim line level text =>
      cases hu
      have ha : a.isVerbatim := hfills (List.isEmpty_iff.mpr hempty)
      rw [ha, if_pos rfl] at hindent
      cases Token.marker_unique (a.marker_is .newline _ _) hindent
  rw [if_neg hverbatim]
  rw [Bool.not_eq_true] at hverbatim
  split
  · refine hone _ fun u hu _ hraw => ?_
    obtain ⟨t, ts, htokens, hno⟩ := hb.start hverbatim
    rw [htokens] at hu
    cases hu
    rw [hno] at hraw
    cases hraw
  · exact isChain_opens_append is_indent_of_mem_closing hus

theorem opens_tokensAfter (hsound : ∀ row ∈ rows, row.Sound) (hfills : (a :: rows).IsChain Fills) :
    (tokensAfter a rows).IsChain Opens := by
  induction rows generalizing a with
  | nil =>
    have hclosing : (a.closing 0 ++ []).IsChain Opens :=
      isChain_opens_append is_indent_of_mem_closing isChain_nil
    rw [append_nil] at hclosing
    exact hclosing
  | cons b rows ih =>
    obtain ⟨hb, hrows⟩ := forall_mem_cons.mp hsound
    obtain ⟨hab, hbelow⟩ := isChain_cons_cons.mp hfills
    rw [tokensAfter, append_assoc]
    exact opens_between hb hab (isChain_opens_append (is_indent_of_mem_tokens hb) (ih hrows hbelow))

/-- The first token of a raw block is not empty. -/
theorem opens_allTokens (hsound : ∀ row ∈ rows, row.Sound) (hfills : rows.IsChain Fills) :
    (allTokens rows).IsChain Opens := by
  cases rows with
  | nil => exact isChain_singleton _
  | cons row rows =>
    obtain ⟨hrow, hrows⟩ := forall_mem_cons.mp hsound
    refine isChain_opens_append ?_ (opens_tokensAfter hrows hfills)
    exact forall_mem_cons.mpr ⟨rfl, is_indent_of_mem_tokens hrow⟩

end Row

end Offside
