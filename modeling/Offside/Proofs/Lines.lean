/-
The lines of a body.

In a source without raw blocks every line that is not blank becomes one line of the body, in the
same order, at the same level and with its comment. All other lines of the body end a block.
-/
import Mathlib.Data.Fin.Tuple.Basic
import Mathlib.Order.Fin.Basic
import Offside.Proofs.Accepted
import Offside.Proofs.Spelling.Lined

set_option autoImplicit false

namespace Offside

open List Text Token Reading SourceHistory Row

/-! ## Lists with others between them -/

/-- The elements of `bs` that belong to those of `as`, in their order, with others between them. -/
inductive Interleaves {α β : Type} (R : α → β → Prop) (P : β → Prop) : List α → List β → Prop
  | nil : Interleaves R P [] []
  | both {a : α} {b : β} {as : List α} {bs : List β} (hab : R a b) (h : Interleaves R P as bs) :
    Interleaves R P (a :: as) (b :: bs)
  | other {b : β} {as : List α} {bs : List β} (hb : P b) (h : Interleaves R P as bs) :
    Interleaves R P as (b :: bs)

namespace Interleaves

variable {α β γ : Type} {R : α → β → Prop} {P : β → Prop} {as : List α} {bs : List β}

theorem others {cs : List β} (hcs : ∀ c ∈ cs, P c) (h : Interleaves R P as bs) : Interleaves R P as (cs ++ bs) := by
  induction cs with
  | nil => exact h
  | cons c cs ih =>
    obtain ⟨hc, hcs⟩ := forall_mem_cons.mp hcs
    exact .other hc (ih hcs)

theorem of_forall₂ {S : γ → α → Prop} {T : γ → β → Prop} {cs : List γ}
    (hST : ∀ c a b, S c a → R a b → T c b) (hcs : Forall₂ S cs as)
    (h : Interleaves R P as bs) : Interleaves T P cs bs := by
  induction h generalizing cs with
  | nil =>
    cases hcs
    exact .nil
  | both hab h ih =>
    cases hcs with
    | cons hc hcs => exact .both (hST _ _ _ hc hab) (ih hcs)
  | other hb h ih => exact .other hb (ih hcs)

theorem exists_strictMono (h : Interleaves R P as bs) : ∃ f : Fin as.length → Fin bs.length, StrictMono f ∧
      (∀ i, R (as.get i) (bs.get (f i))) ∧ ∀ j, (∀ i, f i ≠ j) → P (bs.get j) := by
  induction h with
  | nil => exact ⟨id, strictMono_id, fun i => i.elim0, fun j => j.elim0⟩
  | @both a b as bs hab h ih =>
    obtain ⟨f, hmono, hR, hP⟩ := ih
    refine ⟨Fin.cons 0 fun i => (f i).succ, ?_, ?_, ?_⟩
    · intro i j hij
      induction j using Fin.cases with
      | zero => exact absurd hij (Fin.not_lt_zero i)
      | succ j =>
        induction i using Fin.cases with
        | zero => exact Fin.succ_pos _
        | succ i => exact Fin.succ_lt_succ_iff.mpr (hmono (Fin.succ_lt_succ_iff.mp hij))
    · intro i
      induction i using Fin.cases with
      | zero => exact hab
      | succ i => exact hR i
    · intro j hj
      induction j using Fin.cases with
      | zero => exact absurd rfl (hj 0)
      | succ j =>
        refine hP j fun i hi => hj i.succ ?_
        rw [Fin.cons_succ, hi]
  | @other b as bs hb h ih =>
    obtain ⟨f, hmono, hR, hP⟩ := ih
    refine ⟨fun i => (f i).succ, fun i j hij => Fin.succ_lt_succ_iff.mpr (hmono hij), hR, ?_⟩
    intro j hj
    induction j using Fin.cases with
    | zero => exact hb
    | succ j => exact hP j fun i hi => hj i (congrArg Fin.succ hi)

end Interleaves

/-! ## Lines of the source and their rows -/

variable {level number : Nat} {row : Row} {u x y line unit : Text} {s s' : Reading} {rows : List Row}
  {lines : List Text} {ts : List Token}

namespace Reading

theorem Reads.rows_subset (h : Reads number line s s') : s.rows ⊆ s'.rows := by
  cases h with
  | blank | rawBlank => exact List.Subset.refl _
  | rawLine => exact fun row hrow => mem_cons_of_mem _ (mem_append_right _ hrow)
  | words => exact subset_cons_self _ _

theorem readLines_rows_subset (hread : readLines number lines s = .ok () s') : s.rows ⊆ s'.rows := by
  refine readLines_invariant (I := fun t => s.rows ⊆ t.rows) ?_ (List.Subset.refl _) hread
  exact fun h hreads => List.Subset.trans h hreads.rows_subset

end Reading

def Text.filledLines (source : Text) : List Text :=
  source.lines.filter fun line => !(Reading.content line).isEmpty

def Row.IsLine (unit line : Text) (row : Row) : Prop :=
  ∃ number level words, row = .words number level words ∧
    levelIn? unit (indentation line) = some level ∧
    Word.cut (Reading.content line) = .ok words

namespace Reading

theorem levelIn?_nil (unit : Text) : levelIn? unit [] = some 0 := by
  rw [levelIn?, length_nil, Nat.zero_div]
  rfl

/-- Lines that are not blank become rows, one each, if none is raw. -/
theorem readLines_rows (hread : readLines number lines s = .ok () s')
    (hunit : s'.unit.isEmpty = false → unit = s'.unit) (hwords : ∀ row ∈ s'.rows, row.isVerbatim = false) :
    ∃ rows, s'.rows = rows.reverse ++ s.rows ∧
      Forall₂ (IsLine unit) (lines.filter fun line => !(content line).isEmpty) rows := by
  induction lines generalizing number s with
  | nil =>
    cases hread
    exact ⟨[], rfl, .nil⟩
  | cons line lines ih =>
    obtain ⟨s₁, hreads, hread⟩ := readLines_cons hread
    obtain ⟨rows, hrows, hlines⟩ := ih hread
    cases hreads with
    | blank hblank | rawBlank hblank =>
      rw [filter_cons_of_neg (by rw [hblank]; decide)]
      exact ⟨rows, hrows, hlines⟩
    | rawLine hcontent hraw htext =>
      have hverbatim := hwords _ (readLines_rows_subset hread mem_cons_self)
      cases hverbatim
    | @words level words detected hcontent hraw hlevel hfits hcut =>
      rw [filter_cons_of_pos (by rw [hcontent]; rfl)]
      refine ⟨.words number level words :: rows, ?_, .cons ⟨_, _, _, rfl, ?_, hcut⟩ hlines⟩
      · rw [hrows, reverse_cons, append_assoc]
        rfl
      rw [IsLevel] at hlevel
      by_cases hempty : (indentation line).isEmpty
      · rw [if_pos hempty] at hlevel
        rw [List.isEmpty_iff.mp hempty, hlevel, levelIn?_nil]
      · -- The unit is known on this line, so it is that of the source.
        rw [if_neg hempty] at hlevel
        rw [Bool.not_eq_true] at hempty
        have hknown : (s.unitAt line).isEmpty = false := unitAt_isEmpty hempty
        have hfinal := readLines_unit hknown hread
        dsimp only at hfinal
        rw [hunit (by rw [hfinal]; exact hknown), hfinal]
        exact hlevel

end Reading

theorem Row.subset_tokensAfter {a : Row} (hrow : row ∈ rows) : row.tokens ⊆ tokensAfter a rows := by
  induction rows generalizing a with
  | nil => cases hrow
  | cons b rows ih =>
    rw [tokensAfter]
    rcases mem_cons.mp hrow with rfl | hrow
    · exact fun t ht => mem_append_left _ (mem_append_right _ ht)
    · exact fun t ht => mem_append_right _ (ih hrow ht)

theorem Row.subset_allTokens (hrow : row ∈ rows) : row.tokens ⊆ allTokens rows := by
  cases rows with
  | nil => cases hrow
  | cons a rows =>
    rw [allTokens]
    rcases mem_cons.mp hrow with rfl | hrow
    · exact fun t ht => mem_append_left _ (mem_cons_of_mem _ ht)
    · exact fun t ht => mem_append_right _ (subset_tokensAfter hrow ht)

variable {source : Text} {m : Token} {scanned : Scanned} {ds run : List Token}

/-- So do the lines of a source. -/
theorem scan_lines (h : (scan unit source).outcome = .ok scanned) (hraw : ∀ t ∈ scanned.tokens, t.depth = 0) :
    ∃ rows, scanned.tokens = allTokens rows ∧ Laid rows ∧ (∀ row ∈ rows, row.isVerbatim = false) ∧
      Forall₂ (IsLine scanned.unit) source.filledLines rows := by
  obtain ⟨s, hread, rfl⟩ := scan_ok_iff.mp h
  have hwords : ∀ row ∈ s.rows, row.isVerbatim = false := by
    intro row hrow
    rw [Bool.eq_false_iff]
    intro hverbatim
    cases row with
    | words => cases hverbatim
    | verbatim number level text =>
      have hdepth := hraw _ (subset_allTokens (mem_reverse.mpr hrow)
        (mem_singleton.mpr rfl))
      cases hdepth
  obtain ⟨rows, hrows, hlines⟩ := readLines_rows hread unitOr_of_known hwords
  have hreverse : s.rows.reverse = rows := by
    rw [hrows, append_nil, reverse_reverse]
  have hsound := sound_of_readLines hread
  refine ⟨s.rows.reverse, rfl, hsound.rows.laid, fun row hrow => hwords row (mem_reverse.mp hrow), ?_⟩
  rw [hreverse]
  exact hlines

/-! ## From tokens to lines -/

def Token.NoBlock (t u : Token) : Prop := t.is Marker.indent.text → u.raw = false

/-- No raw token starts a block in such a source. -/
theorem noBlock_of_scan (h : (scan unit source).outcome = .ok scanned) (hraw : ∀ t ∈ scanned.tokens, t.depth = 0) :
    scanned.tokens.IsChain NoBlock := by
  refine isChain_iff_forall_rel_of_append_cons_cons.mpr fun t u before after hsplit hindent => ?_
  rw [Bool.eq_false_iff]
  intro hu
  -- The indent would open a raw block, and show it.
  have hopen : InRawBlock (before ++ [t]) (u :: after) :=
    ⟨before, t, [], rfl, hindent, ⟨u, after, rfl, hu⟩, fun _ hv => (nomatch hv)⟩
  have ht : t ∈ scanned.tokens := by
    rw [hsplit]
    simp
  rcases (laidOut_of_scan h).depth before t (u :: after) hsplit with ⟨-, hdepth⟩ | ⟨hno, -⟩
  · rw [hraw t ht] at hdepth
    cases hdepth
  · exact hno hopen

def Text.IsClosing (unit line : Text) : Prop :=
  ∃ k, line = repeated k unit ++ "\x7d" ∨ line = repeated k unit ++ "break;"

theorem split_unique {p : Token → Bool} {run' ts' : List Token} (h : run ++ ts = run' ++ ts')
    (hrun : ∀ t ∈ run, p t = false) (hrun' : ∀ t ∈ run', p t = false) (hts : ∀ t ∈ ts.head?, p t)
    (hts' : ∀ t ∈ ts'.head?, p t) : run = run' ∧ ts = ts' := by
  have htake : ∀ {run ts : List Token}, (∀ t ∈ run, p t = false) → (∀ t ∈ ts.head?, p t) →
      (run ++ ts).takeWhile (fun t => !p t) = run := by
    intro run ts hrun hts
    rw [takeWhile_append_of_pos (by simpa using hrun)]
    cases ts with
    | nil => exact append_nil _
    | cons t ts => rw [takeWhile_cons_of_neg (by simp [hts t rfl]), append_nil]
  have hsame : run = run' := by
    rw [← htake hrun hts, h, htake hrun' hts']
  subst hsame
  exact ⟨rfl, append_cancel_left h⟩

namespace Lined

variable {u x y : Text} {ts : List Token} {m : Token}

theorem eq_nil (h : Lined u [] x y) : x = [] ∧ y = [] := by
  generalize hall : ([] : List Token) = all at h
  cases h with
  | nil => exact ⟨rfl, rfl⟩
  | text hrun => exact absurd (append_eq_nil_iff.mp hall.symm).1 hrun.nonempty
  | raw => cases (append_eq_nil_iff.mp hall.symm).2
  | _ => cases hall

theorem not_raw {before rs : List Token} {r : Token} (hchain : (before ++ m :: r :: (rs ++ ts)).IsChain NoBlock)
    (hm : m.is Marker.indent.text) (hr : r.raw) : False := by
  have hpair := (isChain_cons_cons.mp (isChain_append.mp hchain).2.1).1 hm
  rw [hr] at hpair
  cases hpair

theorem exists_text (h : Lined u (run ++ ts) x y) (hchain : (run ++ ts).IsChain NoBlock) (hne : run ≠ [])
    (hrun : ∀ t ∈ run, t.isMarker = false) (hts : ∀ t ∈ ts.head?, t.isMarker) :
    ∃ p x' y', x = p ++ x' ∧ LineText run p ∧ Lined u ts x' y' := by
  obtain ⟨first, rest, rfl⟩ := exists_cons_of_ne_nil hne
  have hfirst : ∀ {v : Token} {vs : List Token} {k : Marker}, first :: rest ++ ts = v :: vs →
      v.is k.text → False := by
    intro v vs k heq hv
    obtain ⟨rfl, -⟩ := cons.inj heq
    have hno := hrun first mem_cons_self
    rw [isMarker_of_mark hv] at hno
    cases hno
  generalize hall : first :: rest ++ ts = all at h hchain
  cases h with
  | nil => cases hall
  | start hm h | closing hm hc h => exact (hfirst hall hm).elim
  | line hm h => exact (hm.elim (hfirst hall) (hfirst hall)).elim
  | @text run' ts' p x y hline hplain hts' h =>
    obtain ⟨rfl, rfl⟩ := split_unique hall hrun hplain hts hts'
    exact ⟨p, x, y, rfl, hline, h⟩
  | raw rs hne hbefore hm hr => exact (not_raw hchain hm hr).elim

theorem marker_cases (h : Lined u (m :: ts) x y) (hchain : (m :: ts).IsChain NoBlock) (hm : m.isMarker) :
    (m.is Marker.begin.text ∧ ∃ y', Lined u ts x y') ∨
    (∃ x' y', x = (Piece.lineBreak m.level).render u ++ x' ∧ Lined u ts x' y' ∧
      (m.is Marker.newline.text ∨ m.is Marker.indent.text)) ∨
    ∃ c x' y', x = Fragment.render u (Closing.fragment c) ++ x' ∧ Lined u ts x' y' ∧
      m.is Marker.dedent.text := by
  generalize hall : m :: ts = all at h hchain
  cases h with
  | nil => cases hall
  | start hbegin h =>
    cases hall
    exact .inl ⟨hbegin, _, h⟩
  | line hline h =>
    cases hall
    exact .inr (.inl ⟨_, _, rfl, h, hline⟩)
  | @closing _ _ _ _ c _ hdedent hc h =>
    cases hall
    exact .inr (.inr ⟨c, _, _, rfl, h, hdedent⟩)
  | @text run ts' p x y hrun hplain hts h =>
    obtain ⟨first, rest, rfl⟩ := exists_cons_of_ne_nil hrun.nonempty
    obtain ⟨rfl, -⟩ := cons.inj hall
    rw [hplain m mem_cons_self] at hm
    cases hm
  | raw rs hne hbefore hindent hr => exact (not_raw hchain hindent hr).elim

end Lined

/-- The end of a block is whole lines that close something. -/
theorem Closing.exists_lines (u : Text) (c : Closing) :
    ∃ lines : List Text, c.fragment.render u = lines.flatMap (fun l => Text.lineEnd :: l) ∧
      (∀ l ∈ lines, IsClosing u l) ∧ (Text.lineEnd ∉ u → ∀ l ∈ lines, Text.lineEnd ∉ l) := by
  have hline : ∀ (k : Nat) (word : Text), Text.lineEnd ∉ word →
      Text.lineEnd ∉ u → Text.lineEnd ∉ repeated k u ++ word := by
    intro k word hword hu
    rw [mem_append, not_or]
    exact ⟨lineEnd_not_mem_repeated hu k, hword⟩
  have hbreak : ∀ (level : Int) (word : Text), Fragment.render u [.lineBreak level, .code word] =
      [repeated level.toNat u ++ word].flatMap fun l => Text.lineEnd :: l := by
    intro level word
    simp only [Fragment.render_cons, Fragment.render_nil, Piece.render, append_nil,
      flatMap_singleton, append_assoc]
    rfl
  cases c with
  | block level =>
    refine ⟨[repeated level.toNat u ++ "\x7d"], hbreak _ _, ?_, fun hu => ?_⟩
    · simpa using ⟨_, .inl rfl⟩
    · simpa using hline _ _ (by decide) hu
  | caseBody needsBreak level =>
    cases needsBreak with
    | true =>
      refine ⟨[repeated (level + 1).toNat u ++ "break;"], hbreak _ _, ?_, fun hu => ?_⟩
      · simpa using ⟨_, .inr rfl⟩
      · simpa using hline _ _ (by decide) hu
    | false => exact ⟨[], rfl, fun _ hl => absurd hl not_mem_nil, fun _ _ hl => absurd hl not_mem_nil⟩

/-- The markers between two rows: lines that close something, and the break before the next line. -/
theorem Lined.exists_closings (h : Lined u (ds ++ m :: ts) x y) (hchain : (ds ++ m :: ts).IsChain NoBlock)
    (hds : ∀ d ∈ ds, d.is Marker.dedent.text) (hunit : ds ≠ [] → Text.lineEnd ∉ u)
    (hm : m.is Marker.newline.text ∨ m.is Marker.indent.text) : ∃ (closings : List Text) (x' y' : Text),
      x = closings.flatMap (fun l => Text.lineEnd :: l) ++ ((Piece.lineBreak m.level).render u ++ x') ∧
      (∀ l ∈ closings, IsClosing u l ∧ Text.lineEnd ∉ l) ∧ Lined u ts x' y' := by
  induction ds generalizing x y with
  | nil =>
    have hmarker : m.isMarker :=
      hm.elim isMarker_of_mark isMarker_of_mark
    rcases h.marker_cases hchain hmarker with
      ⟨hbegin, -⟩ | ⟨x', y', rfl, h, -⟩ | ⟨c, x', y', -, -, hdedent⟩
    · rcases hm with hm | hm <;> cases marker_unique hbegin hm
    · exact ⟨[], x', y', rfl, fun _ hl => (nomatch hl), h⟩
    · rcases hm with hm | hm <;> cases marker_unique hdedent hm
  | cons d ds ih =>
    obtain ⟨hd, hds⟩ := forall_mem_cons.mp hds
    have hu := hunit (cons_ne_nil _ _)
    rcases h.marker_cases hchain (isMarker_of_mark hd) with
      ⟨hbegin, -⟩ | ⟨-, -, -, -, hline⟩ | ⟨c, x', y', rfl, h, -⟩
    · cases marker_unique hbegin hd
    · rcases hline with hline | hline <;> cases marker_unique hline hd
    · obtain ⟨closings, x'', y'', rfl, hclosings, h⟩ :=
        ih h (isChain_cons.mp hchain).2 hds fun _ => hu
      obtain ⟨lines, hlines, hclosing, hline⟩ := c.exists_lines u
      refine ⟨lines ++ closings, x'', y'', ?_, ?_, h⟩
      · rw [hlines, flatMap_append, append_assoc]
      · exact forall_mem_append.mpr ⟨fun l hl => ⟨hclosing l hl, hline hu l hl⟩, hclosings⟩

/-! ## Rows and lines of the body -/

namespace Text

theorem pieces_lines {p rest : Text} (hp : lineEnd ∉ p) (hlines : ∀ l ∈ lines, lineEnd ∉ l) :
    pieces lineEnd (p ++ (lines.flatMap (fun l => lineEnd :: l) ++ lineEnd :: rest)) =
      p :: lines ++ pieces lineEnd rest := by
  induction lines generalizing p with
  | nil =>
    rw [flatMap_nil, nil_append, pieces_append, pieces_of_line hp]
  | cons l lines ih =>
    obtain ⟨hl, hlines⟩ := forall_mem_cons.mp hlines
    rw [flatMap_cons, cons_append, cons_append, pieces_append, pieces_of_line hp,
      append_assoc, ih hl hlines]
    rfl

end Text

namespace Row

def Becomes (u : Text) (row : Row) (line : Text) : Prop :=
  ∃ t, line = repeated row.level u ++ t ∧ LineText row.tokens t

/-- The markers after a row when the next line is at `level`: dedents, and then a line break. -/
structure Ends (row : Row) (level : Nat) (ds : List Token) (m : Token) : Prop where
  dedent : ∀ d ∈ ds, d.is Marker.dedent.text
  deep : ds ≠ [] → row.level ≠ 0
  line : m.is Marker.newline.text ∨ m.is Marker.indent.text
  level : m.level = level

theorem closing_eq (row : Row) (level : Nat) : ∃ ds m, row.closing level = ds ++ [m] ∧ row.Ends level ds m := by
  refine ⟨row.dedents level, _, row.closing_eq_dedents level, row.is_dedent_of_mem_dedents level, ?_,
    .inl (row.marker_is .newline level 0), rfl⟩
  intro hne hzero
  exact hne (by simp [dedents, hzero])

theorem between_eq (a : Row) {b : Row} (hb : b.isVerbatim = false) :
    ∃ ds m, a.between b = ds ++ [m] ∧ a.Ends b.level ds m := by
  rw [between, hb, if_neg Bool.false_ne_true]
  split
  · exact ⟨[], _, rfl, fun _ hd => absurd hd not_mem_nil, fun hne => absurd rfl hne,
      .inr (a.marker_is .indent b.level 0), rfl⟩
  · exact a.closing_eq b.level

/-- A row becomes a line, and what ends behind it lines that close. -/
theorem Ends.exists_line (hends : row.Ends level ds m) (hsound : row.Sound) (hwords : row.isVerbatim = false)
    (hunit : row.level ≠ 0 → Text.lineEnd ∉ u) (hchain : (row.tokens ++ (ds ++ m :: ts)).IsChain NoBlock)
    (h : Lined u (row.tokens ++ (ds ++ m :: ts)) x y) :
    ∃ line closings x' y', row.Becomes u line ∧ (∀ l ∈ closings, IsClosing u l) ∧ Lined u ts x' y' ∧
      (x' = [] ∧ level = 0 ∨ x'.getLast? = some Text.lineEnd → x.getLast? = some Text.lineEnd) ∧
      pieces Text.lineEnd (repeated row.level u ++ x) =
        line :: closings ++ pieces Text.lineEnd (repeated level u ++ x') := by
  obtain ⟨t, ts', htokens, -⟩ := hsound.start hwords
  have hne : row.tokens ≠ [] := by
    rw [htokens]
    exact cons_ne_nil _ _
  have hmarkers : ∀ v ∈ (ds ++ m :: ts).head?, v.isMarker := by
    intro v hv
    cases ds with
    | nil =>
      cases hv
      exact hends.line.elim isMarker_of_mark
        isMarker_of_mark
    | cons d ds =>
      cases hv
      exact isMarker_of_mark (hends.dedent _ mem_cons_self)
  -- The words give the line, the dedents the closing lines, and the last marker the line break.
  obtain ⟨p, x', y', rfl, hp, h⟩ := h.exists_text hchain hne hsound.plain hmarkers
  obtain ⟨closings, x', y', rfl, hclosings, h⟩ := h.exists_closings (isChain_append.mp hchain).2.1
    hends.dedent (fun hne => hunit (hends.deep hne)) hends.line
  have hbreak : (Piece.lineBreak m.level).render u = Text.lineEnd :: repeated level u := by
    rw [hends.level]
    rfl
  have hunits : Text.lineEnd ∉ repeated row.level u := by
    by_cases hzero : row.level = 0
    · rw [hzero]
      exact not_mem_nil
    · exact lineEnd_not_mem_repeated (hunit hzero) _
  refine ⟨repeated row.level u ++ p, closings, x', y', ⟨p, rfl, hp⟩, fun l hl => (hclosings l hl).1, h, ?_, ?_⟩
  · rw [hbreak]
    rintro (⟨rfl, rfl⟩ | hlast)
    · simp [repeated]
    · rw [getLast?_append, getLast?_append, getLast?_append, hlast]
      rfl
  · rw [hbreak, ← append_assoc, cons_append]
    refine pieces_lines ?_ fun l hl => (hclosings l hl).2
    rw [mem_append, not_or]
    exact ⟨hunits, hp.lineEnd⟩

/-- So do all rows, by induction on them. -/
theorem interleaves_lines (hsound : ∀ r ∈ row :: rows, r.Sound) (hwords : ∀ r ∈ row :: rows, r.isVerbatim = false)
    (hunit : ∀ r ∈ row :: rows, r.level ≠ 0 → Text.lineEnd ∉ u)
    (hchain : (row.tokens ++ tokensAfter row rows).IsChain NoBlock)
    (h : Lined u (row.tokens ++ tokensAfter row rows) x y) : x.getLast? = some Text.lineEnd ∧
    ∃ lines, pieces Text.lineEnd (repeated row.level u ++ x) = lines ++ [[]] ∧
      Interleaves (Becomes u) (IsClosing u) (row :: rows) lines := by
  induction rows generalizing row x y with
  | nil =>
    obtain ⟨ds, m, hclosing, hends⟩ := row.closing_eq 0
    rw [tokensAfter, hclosing] at hchain h
    obtain ⟨line, closings, x', y', hline, hclosings, h, hlast, hpieces⟩ :=
      hends.exists_line (hsound row mem_cons_self) (hwords row mem_cons_self)
        (hunit row mem_cons_self) hchain h
    obtain ⟨rfl, -⟩ := h.eq_nil
    refine ⟨hlast (.inl ⟨rfl, rfl⟩), line :: closings, hpieces, .both hline ?_⟩
    rw [← append_nil closings]
    exact Interleaves.nil.others hclosings
  | cons b rows ih =>
    obtain ⟨hrow, hsound⟩ := forall_mem_cons.mp hsound
    obtain ⟨hrow', hwords⟩ := forall_mem_cons.mp hwords
    obtain ⟨hu, hunit⟩ := forall_mem_cons.mp hunit
    obtain ⟨ds, m, hbetween, hends⟩ := row.between_eq (hwords b mem_cons_self)
    have hsplit : row.tokens ++ tokensAfter row (b :: rows) =
        row.tokens ++ (ds ++ m :: (b.tokens ++ tokensAfter b rows)) := by
      rw [tokensAfter, hbetween]
      simp
    rw [hsplit] at hchain h
    obtain ⟨line, closings, x', y', hline, hclosings, h, hlast, hpieces⟩ :=
      hends.exists_line hrow hrow' hu hchain h
    have hbelow := (isChain_cons.mp (isChain_append.mp (isChain_append.mp
      hchain).2.1).2.1).2
    obtain ⟨hlast', lines, hlines, hinterleaves⟩ := ih hsound hwords hunit hbelow h
    refine ⟨hlast (.inr hlast'), line :: closings ++ lines, ?_, ?_⟩
    · rw [hpieces, hlines, append_assoc]
    · exact .both hline (hinterleaves.others hclosings)

end Row

/-! ## Comments -/

theorem LineComment.WrittenAfter.unique {c c' : Option LineComment} (h : LineComment.WrittenAfter c ts)
    (h' : LineComment.WrittenAfter c' ts) : c = c' := by
  cases c with
  | none =>
    obtain rfl := h
    cases c' with
    | none => rfl
    | some c' => cases h'
  | some c =>
    cases c' with
    | none =>
      obtain rfl := h'
      cases h
    | some c' =>
      cases h with
      | bare hsign => cases h'; rfl
      | text hsign ht => cases h'; rfl

theorem LineText.code_isSuffix {content t : Text} {words : List Word} {c : LineComment}
    (h : LineText (Row.words number level words).tokens t) (hcut : Word.cut content = .ok words)
    (hc : Word.lineComment? words = some c) : c.code <:+ t := by
  obtain ⟨codes, cs, comment, hsplit, hcodes, hcomment, hsuffix⟩ := h.comment
  obtain ⟨codes', cs', hsplit', hcodes', hcomment'⟩ := Word.tokens_of_cut hcut number level
  have hcode : ∀ t : Token, t.IsCode → (t.isCommentSign || t.raw) = false := by
    intro t ht
    rw [ht.sign, ht.raw]
    rfl
  have hhead : ∀ {comment : Option LineComment} {cs : List Token},
      LineComment.WrittenAfter comment cs → ∀ t ∈ cs.head?, (t.isCommentSign || t.raw) := by
    intro comment cs hcomment t ht
    rw [Bool.or_eq_true]
    exact hcomment.mem t (mem_of_mem_head? ht)
  obtain ⟨-, rfl⟩ := split_unique (p := fun t => t.isCommentSign || t.raw) (hsplit.symm.trans hsplit')
    (fun t ht => hcode t (hcodes t ht)) (fun t ht => hcode t (hcodes' t ht).1) (hhead hcomment)
    (hhead hcomment')
  refine hsuffix c ?_
  rw [hcomment.unique hcomment', hc]
  rfl

/-! ## The body -/

/-- A line of a body is what a line of the source becomes: at its level, with code or a comment, and
with the comment that the line has at its end. -/
def Text.IsLineFor (unit line out : Text) : Prop :=
  ∃ k t, levelIn? unit (indentation line) = some k ∧
    out = repeated k unit ++ t ∧ (∃ b rest, t = b :: rest ∧ isIndent b = false) ∧
    ∀ words c, Word.cut (Reading.content line) = .ok words → Word.lineComment? words = some c →
      c.code <:+ t

/-- The lines of a body, and where those of its source are among them. -/
structure KeepsLines (unit source body : Text) (lines : List Text)
    (f : Fin source.filledLines.length → Fin lines.length) : Prop where
  pieces : pieces Text.lineEnd body = lines ++ [[]]
  order : StrictMono f
  line : ∀ i, IsLineFor unit (source.filledLines.get i) (lines.get (f i))
  other : ∀ j, (∀ i, f i ≠ j) → IsClosing unit (lines.get j)

theorem Row.Becomes.isLineFor {out : Text} (hrow : row.IsLine unit line) (h : row.Becomes unit out) :
    IsLineFor unit line out := by
  obtain ⟨number, level, words, rfl, hlevel, hcut⟩ := hrow
  obtain ⟨t, rfl, ht⟩ := h
  obtain ⟨b, rest, rfl, hb⟩ := ht.starts
  refine ⟨level, b :: rest, hlevel, rfl, ⟨b, rest, rfl, ?_⟩, ?_⟩
  · rw [Word.startsCode, Bool.and_eq_true, Bool.not_eq_true', isGap, Bool.or_eq_false_iff] at hb
    exact hb.1.1
  · intro words' c hcut' hc
    obtain rfl := Except.ok.inj (hcut.symm.trans hcut')
    exact ht.code_isSuffix hcut hc

theorem lineEnd_not_mem_of_levelIn? (h : levelIn? unit (indentation line) = some level)
    (hlevel : level ≠ 0) : Text.lineEnd ∉ unit := by
  intro hmem
  have hunits := repeated_of_levelIn? h
  obtain ⟨k, rfl⟩ := Nat.exists_eq_succ_of_ne_zero hlevel
  rw [Nat.succ_eq_add_one, repeated_succ] at hunits
  have hindent : Text.lineEnd ∈ indentation line :=
    hunits ▸ mem_append_left _ hmem
  have hspace := all_eq_true.mp all_takeWhile _ hindent
  revert hspace
  decide

theorem Lined.of_start (h : Lined u (Row.start :: ts) x y) (hchain : (Row.start :: ts).IsChain NoBlock) :
    ∃ y', Lined u ts x y' := by
  have hmarker : Row.start.isMarker := isMarker_of_mark start_is
  rcases h.marker_cases hchain hmarker with ⟨-, h⟩ | ⟨-, -, -, -, hline⟩ | ⟨-, -, -, -, -, hdedent⟩
  · exact h
  · rcases hline with hline | hline <;> cases marker_unique start_is hline
  · cases marker_unique start_is hdedent

/-- The body of a layout is the lines of its rows, with closing lines between. -/
theorem Row.Laid.interleaves (hlaid : Laid rows) (hwords : ∀ row ∈ rows, row.isVerbatim = false)
    (hunit : ∀ row ∈ rows, row.level ≠ 0 → Text.lineEnd ∉ u) (hchain : (allTokens rows).IsChain NoBlock)
    (h : Lined u (allTokens rows) x y) : (x = [] ∨ x.getLast? = some Text.lineEnd) ∧
      ∃ lines, pieces Text.lineEnd x = lines ++ [[]] ∧
        Interleaves (Becomes u) (IsClosing u) rows lines := by
  cases rows with
  | nil =>
    obtain ⟨y', h⟩ := h.of_start hchain
    obtain ⟨rfl, -⟩ := h.eq_nil
    exact ⟨.inl rfl, [], rfl, .nil⟩
  | cons row rows =>
    rw [allTokens, cons_append] at hchain h
    obtain ⟨y', h⟩ := h.of_start hchain
    obtain ⟨hlast, lines, hlines, hinterleaves⟩ :=
      interleaves_lines hlaid.sound hwords hunit (isChain_cons.mp hchain).2 h
    rw [(hlaid.first row rfl).2.1] at hlines
    exact ⟨.inr hlast, lines, hlines, hinterleaves⟩

/-- Layout is preserved. The body of a source without raw blocks is empty or ends in a newline. The
lines of the source that are not blank are lines of the body, in the same order, at the same level
and with their comments at the end. All others close something. -/
theorem layout_preserved {unit source : Text} {scanned : Scanned} {h : History}
    (haccepts : SourceHistory.Accepts unit source h) (hscan : (scan unit source).outcome = .ok scanned)
    (hraw : ∀ t ∈ scanned.tokens, t.depth = 0) : (h.body = [] ∨ h.body.getLast? = some Text.lineEnd) ∧
      ∃ lines f, KeepsLines scanned.unit source h.body lines f := by
  obtain ⟨_, hscan', hunit, hwritten⟩ := haccepts.written
  obtain rfl := Except.ok.inj (hscan.symm.trans hscan')
  obtain ⟨rows, htokens, hlaid, hwords, hrows⟩ := scan_lines hscan hraw
  have hnoblock := noBlock_of_scan hscan hraw
  have hneighbours : scanned.tokens.IsChain Token.Neighbours := by
    have hadjacent := chain_of_scan hscan
    have hnoblock := hnoblock
    rw [isChain_iff_forall_rel_of_append_cons_cons] at hadjacent hnoblock ⊢
    intro t v before after hsplit
    refine ⟨hadjacent hsplit, fun hindent hv => ?_⟩
    rw [hnoblock hsplit hindent] at hv
    cases hv
  have hlast : ∀ t ∈ scanned.tokens.getLast?, t.isMarker = true := by
    obtain ⟨t, ht, hmarker, -⟩ := Row.getLast?_allTokens rows
    rw [htokens, ht]
    rintro _ ⟨⟩
    exact hmarker
  have hlined := hwritten.lined (u := scanned.unit) (proper_of_scan hscan) hneighbours hlast
  have hlevels : ∀ row ∈ rows, row.level ≠ 0 → Text.lineEnd ∉ scanned.unit := by
    have hflip : Forall₂ (flip (Row.IsLine scanned.unit)) rows source.filledLines := hrows.flip
    refine ((forall₂_and_left (R := flip (Row.IsLine scanned.unit)) rows
      source.filledLines).mp (hflip.imp ?_)).1
    intro row line hrow
    refine ⟨fun hlevel => ?_, hrow⟩
    obtain ⟨number, level, words, rfl, hlevelIn, -⟩ := hrow
    exact lineEnd_not_mem_of_levelIn? hlevelIn hlevel
  rw [htokens] at hlined hnoblock
  obtain ⟨hends, lines, hlines, hinterleaves⟩ :=
    hlaid.interleaves hwords hlevels hnoblock hlined
  have hbody : h.body = (h.clauses.map (Clause.render scanned.unit)).flatten := by
    rw [← hunit]
    rfl
  rw [← hbody] at hends hlines
  obtain ⟨f, hmono, hline, hother⟩ := (hinterleaves.of_forall₂
    (fun line row out hrow hout => hout.isLineFor hrow) hrows).exists_strictMono
  exact ⟨hends, lines, f, hlines, hmono, hline, hother⟩

/-- A switch with comments and a blank line. The `break` and the brace are the lines that are new. -/
theorem layout_preserved_switch : ∃ h lines f, SourceHistory.Accepts []
        ("switch a: # s\n  case 1:\n\n    b = 1 #. one\n" : String) h ∧
      h.body = ("switch (a) \x7b // s\n  case 1:\n    b = 1; /// one\n    break;\n\x7d\n" : String) ∧
      KeepsLines ("  " : String) ("switch a: # s\n  case 1:\n\n    b = 1 #. one\n" : String) h.body
        lines f := by
  obtain ⟨h, haccepts, hbody⟩ := SourceHistory.accepts_of_run []
    ("switch a: # s\n  case 1:\n\n    b = 1 #. one\n" : String)
    ("switch (a) \x7b // s\n  case 1:\n    b = 1; /// one\n    break;\n\x7d\n" : String)
    (by decide +kernel)
  have hscanned : ((scan [] ("switch a: # s\n  case 1:\n\n    b = 1 #. one\n"
      : String)).outcome.toOption.map fun scanned =>
        (scanned.unit, scanned.tokens.all fun t => t.depth == 0)) = some (("  " : Text), true) := by
    decide +kernel
  obtain ⟨scanned, hscan, -⟩ := SourceHistory.history_eq haccepts.1
  rw [hscan] at hscanned
  obtain ⟨hunit, hdepth⟩ := Prod.mk.inj (Option.some.inj hscanned)
  have hraw : ∀ t ∈ scanned.tokens, t.depth = 0 :=
    fun t ht => eq_of_beq (all_eq_true.mp hdepth t ht)
  obtain ⟨-, lines, f, hkeeps⟩ := layout_preserved haccepts hscan hraw
  rw [hunit] at hkeeps
  exact ⟨h, lines, f, haccepts, hbody, hkeeps⟩

end Offside
