/-
A clause keeps the open scopes in step with the tokens that were read.

As many scopes are open as indents were read and not closed, every open class has its type
parameters, and a case body stands on its switch (`Session.Nested`). Between a marker and its scope
the count is off by `k`.
-/
import Offside.Proofs.Parse.Safety

set_option autoImplicit false

namespace Offside

open List Token Parse

variable {tag : Tag} {α : Type} {t : Token} {header : Header}

namespace Tag

def bindsTypes : Tag → Bool
  | userType | template => true
  | _ => false

/-- Tags that nothing else depends on: they have a name, bring no type parameters, stand anywhere
and stay open. -/
def isOrdinary : Tag → Bool
  | userType | template | caseBody | comment | passthrough => false
  | attributes word => !word.isEmpty
  | _ => true

theorem name_isEmpty (h : ∀ word, tag = .attributes word → word.isEmpty = false) :
    (Named.name tag).isEmpty = false := by
  cases tag with
  | attributes word => exact h word rfl
  | _ => rfl

theorem isOrdinary_of_isPlain (h : header.isPlain) : header.tag.isOrdinary := by
  cases header <;> first | rfl | cases h

theorem name_of_isOrdinary (h : tag.isOrdinary) : (Named.name tag).isEmpty = false := by
  refine name_isEmpty ?_
  rintro word rfl
  rwa [isOrdinary, Bool.not_eq_true'] at h

theorem bindsTypes_of_isOrdinary (h : tag.isOrdinary) : tag.bindsTypes = false := by
  cases tag <;> first | rfl | cases h

end Tag

/-! ## The invariant -/

variable {a : α} {n : Nat} {β : Type} {r : Reader} {p : Parse α} {s : Session} {tags : List Tag}
  {P : α → Reader → Prop}

namespace Session

/-- The scopes that are open, and the type parameters, agree with what was read. As many scopes are
open as levels, and `k` more. -/
structure Nested (k : Int) (s : Session) : Prop where
  depth : (s.scopes.depth : Int) = balance s.stream.seen + k
  generics : s.generics.length = s.scopes.tags.countP Tag.bindsTypes
  cases : ∀ tags, .caseBody :: tags <:+ s.scopes.tags → tags.head? = some .switchBlock
  comment : .comment ∉ s.scopes.tags
  passthrough : .passthrough ∉ s.scopes.tags

/-- A session that has read on from the stream `o`. -/
structure Settled (o : Stream) (k : Int) (s : Session) : Prop extends Nested k s where
  reads : ∃ ts, o.Reads ts s.stream

/-- The session goes on with another reader. -/
abbrev reading (s : Session) (r : Reader) : Session := { s with reader := r }

variable {o : Stream} {k : Int} {s s' : Session}

theorem Settled.of_same (h : s.Settled o k) (hstream : s'.stream = s.stream)
    (htags : s'.scopes.tags = s.scopes.tags) (hgenerics : s'.generics = s.generics) : s'.Settled o k where
  depth := by rw [Scopes.depth, htags, hstream]; exact h.depth
  generics := by rw [htags, hgenerics]; exact h.generics
  cases := by rw [htags]; exact h.cases
  comment := by rw [htags]; exact h.comment
  passthrough := by rw [htags]; exact h.passthrough
  reads := by rw [hstream]; exact h.reads

/-- Reading a marker puts the count off. -/
theorem Settled.read {ts : List Token} (h : s.Settled o k) (hread : s.reader.stream.Reads ts r.stream) :
    (s.reading r).Settled o (k - balance ts) where
  depth := by
    have hbalance : balance r.stream.seen = balance s.stream.seen + balance ts :=
      hread.balance
    have hdepth := h.depth
    have hseen : (s.reading r).stream.seen = r.stream.seen := rfl
    rw [hseen]
    dsimp only
    omega
  generics := h.generics
  cases := h.cases
  comment := h.comment
  passthrough := h.passthrough
  reads := by
    obtain ⟨us, hus⟩ := h.reads
    exact ⟨us ++ ts, hus.trans hread⟩

theorem Settled.pass {j : Nat} (h : s.Settled o k) (hpass : s.reader.Passes j r) :
    (s.reading r).Settled o k := by
  obtain ⟨ts, hread, -, hplain⟩ := hpass
  have hr := h.read hread
  rw [balance_plain hplain, Int.sub_zero] at hr
  exact hr

/-- Opening a scope puts it right. -/
theorem Settled.opened (h : s.Settled o k) (hstream : s'.stream = s.stream)
    (htags : s'.scopes.tags = tag :: s.scopes.tags)
    (hgenerics : s'.generics.length = s.generics.length + if tag.bindsTypes then 1 else 0)
    (hcase : tag = .caseBody → s.scopes.tags.head? = some .switchBlock) (hcomment : tag ≠ .comment)
    (hpassthrough : tag ≠ .passthrough) : s'.Settled o (k + 1) where
  depth := by
    have hdepth : (s.scopes.tags.length : Int) = _ := h.depth
    rw [Scopes.depth, htags, hstream, length_cons]
    omega
  generics := by
    rw [hgenerics, htags, countP_cons, h.generics]
  cases := by
    intro tags hsuffix
    rw [htags, suffix_cons_iff] at hsuffix
    rcases hsuffix with heq | hsuffix
    · obtain ⟨rfl, rfl⟩ := cons.inj heq
      exact hcase rfl
    · exact h.cases tags hsuffix
  comment := by
    rw [htags, mem_cons, not_or]
    exact ⟨hcomment.symm, h.comment⟩
  passthrough := by
    rw [htags, mem_cons, not_or]
    exact ⟨hpassthrough.symm, h.passthrough⟩
  reads := by rw [hstream]; exact h.reads

/-- So does closing one. -/
theorem Settled.closed (h : s.Settled o k) (hopen : s.scopes.tags = tag :: tags) (hstream : s'.stream = s.stream)
    (htags : s'.scopes.tags = tags)
    (hgenerics : s.generics.length = s'.generics.length + if tag.bindsTypes then 1 else 0) :
    s'.Settled o (k - 1) where
  depth := by
    have hdepth : (s.scopes.tags.length : Int) = _ := h.depth
    rw [hopen, length_cons] at hdepth
    rw [Scopes.depth, htags, hstream]
    omega
  generics := by
    have hcount := h.generics
    rw [hopen, countP_cons, hgenerics] at hcount
    rw [htags]
    omega
  cases := by
    intro tags' hsuffix
    rw [htags] at hsuffix
    refine h.cases tags' ?_
    rw [hopen]
    exact hsuffix.trans (suffix_cons tag tags)
  comment := by
    rw [htags]
    intro hmem
    exact h.comment (hopen ▸ mem_cons_of_mem _ hmem)
  passthrough := by
    rw [htags]
    intro hmem
    exact h.passthrough (hopen ▸ mem_cons_of_mem _ hmem)
  reads := by rw [hstream]; exact h.reads

end Session

/-! ## Parts of the session -/

/-- What a dedent is to this level, when it closes a scope with this tag behind a jump or not. -/
def Tag.closing (tag : Tag) (jumped : Bool) (level : Int) : Closing :=
  if tag = .caseBody then .caseBody (!jumped) level else .block level

/-- The session behind its innermost block. The type parameters of a class go with its scope. -/
def Session.leave (s : Session) (tag : Tag) (tags : List Tag) : Session :=
  { s with
    scopes := ⟨tags, some tag⟩
    generics := if tag.bindsTypes then s.generics.tail else s.generics
    terminated := false }

theorem lift_eq (p : Parse α) : (liftM p : Translate α) = Translate.parse p := rfl

theorem Safe.lift (h : Safe p s.reader P) :
    Safe (liftM p : Translate α) s fun a s' => ∃ r, P a r ∧ s' = s.reading r := by
  rw [lift_eq]
  unfold Safe at h ⊢
  rw [Translate.parse]
  rcases hp : p s.reader with ⟨a, r⟩ | ⟨e, r⟩
  · rw [hp] at h
    exact ⟨r, h, rfl⟩
  · rw [hp] at h
    rcases e with e | v
    · trivial
    · exact h

/-- A parser is followed by the rest of the clause. -/
theorem Safe.parse {f : α → Translate β} {Q : β → Session → Prop} (h : Safe p s.reader P)
    (hf : ∀ a r, P a r → Safe (f a) (s.reading r) Q) : Safe ((liftM p : Translate α) >>= f) s Q := by
  refine .seq (.lift h) ?_
  rintro a _ ⟨r, hP, rfl⟩
  exact hf a r hP

theorem lift_ok {s' : Session} (h : (liftM p : Translate α) s = .ok a s') :
    ∃ r, p s.reader = .ok a r ∧ s' = s.reading r := by
  rw [lift_eq, Translate.parse] at h
  rcases hp : p s.reader with ⟨b, r⟩ | ⟨e, r⟩
  · rw [hp] at h
    cases h
    exact ⟨r, rfl, rfl⟩
  · rw [hp] at h
    cases h

theorem lift_of_ok (h : p s.reader = .ok a r) : (liftM p : Translate α) s = .ok a (s.reading r) := by
  rw [lift_eq, Translate.parse, h]

theorem Ensures.parse {f : α → Translate β} {Q : β → Session → Prop} (h : Ensures p s.reader P)
    (hf : ∀ a r, P a r → Ensures (f a) (s.reading r) Q) :
    Ensures ((liftM p : Translate α) >>= f) s Q := by
  refine Ensures.seq (P := fun a s' => ∃ r, P a r ∧ s' = s.reading r) ?_ ?_
  · intro a s' hm
    obtain ⟨r, hp, rfl⟩ := lift_ok hm
    exact ⟨r, h a r hp, rfl⟩
  · rintro a _ ⟨r, hP, rfl⟩
    exact hf a r hP

theorem Ensures.skip {f : α → Translate β} {Q : β → Session → Prop}
    (h : ∀ a r, Ensures (f a) (s.reading r) Q) : Ensures ((liftM p : Translate α) >>= f) s Q :=
  Ensures.parse (P := fun _ _ => True) (fun _ _ _ => trivial) fun a r _ => h a r

theorem Ensures.rejectNext {f : α → Translate β} {Q : β → Session → Prop} {wanted : Text} :
    Ensures ((liftM (Parse.rejectNext wanted : Parse α) : Translate α) >>= f) s Q :=
  Ensures.parse (.of_safe (rejectNext_spec wanted _ fun _ _ => False)) fun _ _ h => h.elim

theorem Ensures.clauseIn {Q : Clause → Session → Prop} (h : ∀ first trace, t.raw = false →
      Ensures (Translate.clauseFrom (Translate.clauseIn n) first t) { s with trace := trace } Q) :
    Ensures (Translate.clauseIn (n + 1) t) s Q := by
  rw [Translate.clauseIn_succ]
  refine Ensures.seq (P := fun _ s' => ∃ trace, s' = { s with trace := trace }) ?_ ?_
  · rintro _ _ ⟨⟩
    exact ⟨_, rfl⟩
  · rintro first _ ⟨trace, rfl⟩
    exact Ensures.guard fun hraw => h first trace (Bool.not_eq_true _ ▸ hraw)

namespace Translate

variable {o : Stream} {s : Session}

abbrev Settles (o : Stream) (m : Translate α) (s : Session) : Prop := Safe m s fun _ s' => s'.Settled o 0

theorem Settles.done {m : Translate α} {f : α → β} (h : Settles o m s) : Settles o (m >>= fun a => pure (f a)) s :=
  Safe.seq h fun _ _ hs => .pure hs

theorem reject_spec (e : ParseError) (s : Session) (Q : α → Session → Prop) : Safe (reject e) s Q := trivial

theorem openScope_of_name (s : Session) (hname : (Named.name tag).isEmpty = false) :
    openScope tag s = .ok () { s with scopes := { s.scopes with tags := tag :: s.scopes.tags } } := by
  rw [openScope, Scopes.push, hname, if_neg Bool.false_ne_true]

theorem openScope_ok {a : Unit} {s' : Session} (h : openScope tag s = .ok a s') :
    (Named.name tag).isEmpty = false ∧ s' = { s with scopes := { s.scopes with tags := tag :: s.scopes.tags } } := by
  cases hname : (Named.name tag).isEmpty with
  | true =>
    rw [openScope, Scopes.push, hname, if_pos rfl] at h
    cases h
  | false =>
    rw [openScope_of_name s hname] at h
    cases h
    exact ⟨rfl, rfl⟩

theorem openScope_spec (s : Session) (hname : (Named.name tag).isEmpty = false) : Safe (openScope tag) s fun _ s' =>
      s' = { s with scopes := { s.scopes with tags := tag :: s.scopes.tags } } := by
  rw [Safe, openScope_of_name s hname]

theorem closeScope_of_tags (h : s.scopes.tags = tag :: tags) :
    closeScope s = .ok tag { s with scopes := ⟨tags, some tag⟩ } := by
  rw [closeScope, Scopes.pop, h]

theorem closeScope_spec (h : s.scopes.tags = tag :: tags) : Safe closeScope s fun a s' =>
      a = tag ∧ s' = { s with scopes := ⟨tags, some tag⟩ } := by
  rw [Safe, closeScope_of_tags h]
  exact ⟨rfl, rfl⟩

theorem closeScope_ok {s' : Session} (h : closeScope s = .ok tag s') :
    ∃ tags, s.scopes.tags = tag :: tags ∧ s' = { s with scopes := ⟨tags, some tag⟩ } := by
  rcases htags : s.scopes.tags with _ | ⟨top, tags⟩
  · rw [closeScope, Scopes.pop, htags] at h
    cases h
  · rw [closeScope_of_tags htags] at h
    cases h
    exact ⟨tags, rfl, rfl⟩

theorem recordDispatch_spec {k : Int} (t : Token) (h : s.Settled o k) :
    Safe (recordDispatch t) s fun _ s' => s'.Settled o k ∧ s'.reader = s.reader := by
  have hrecord : ∀ trace, ({ s with trace := trace } : Session).Settled o k :=
    fun _ => h.of_same rfl rfl rfl
  exact .get ⟨hrecord _, rfl⟩

/-! ## Ends of lines and blocks -/

/-- The end of a block closes the last scope. -/
theorem closeBlock_of_tags (t : Token) (htags : s.scopes.tags = tag :: tags)
    (hgenerics : tag.bindsTypes → s.generics ≠ []) :
    closeBlock t s = .ok (tag.closing s.terminated t.level) (s.leave tag tags) := by
  rcases s with ⟨reader, ⟨_, previous⟩, generics, terminated, trace⟩
  obtain rfl := htags
  cases generics with
  | nil => cases tag <;> first | rfl | exact absurd rfl (hgenerics rfl)
  | cons names generics => cases tag <;> rfl

/-- It would break a rule if a class had no parameters. -/
theorem closeBlock_violates (t : Token) (htags : s.scopes.tags = tag :: tags)
    (hgenerics : ¬ (tag.bindsTypes → s.generics ≠ [])) :
    closeBlock t s = .error (.violated noClassOpen) { s with scopes := ⟨tags, some tag⟩ } := by
  rcases s with ⟨reader, ⟨_, previous⟩, generics, terminated, trace⟩
  obtain rfl := htags
  rw [Classical.not_imp, Classical.not_not] at hgenerics
  obtain ⟨hbinds, rfl⟩ := hgenerics
  cases tag <;> first | rfl | cases hbinds

theorem closeBlock_ok {c : Closing} {s' : Session} (h : closeBlock t s = .ok c s') : ∃ tag tags,
    s.scopes.tags = tag :: tags ∧ (tag.bindsTypes → s.generics ≠ []) ∧
      c = tag.closing s.terminated t.level ∧ s' = s.leave tag tags := by
  rcases htags : s.scopes.tags with _ | ⟨tag, tags⟩
  · rcases s with ⟨reader, ⟨_, previous⟩, generics, terminated, trace⟩
    obtain rfl := htags
    cases h
  · by_cases hgenerics : tag.bindsTypes → s.generics ≠ []
    · rw [closeBlock_of_tags t htags hgenerics] at h
      cases h
      exact ⟨tag, tags, rfl, hgenerics, rfl, rfl⟩
    · rw [closeBlock_violates t htags hgenerics] at h
      cases h

/-- It does not, because every class has. -/
theorem closeBlock_spec (t : Token) (h : s.Settled o 1) : Settles o (closeBlock t) s := by
  rcases htags : s.scopes.tags with _ | ⟨tag, tags⟩
  · rcases s with ⟨reader, ⟨_, previous⟩, generics, terminated, trace⟩
    obtain rfl := htags
    trivial
  · have hlen := h.generics
    rw [htags, countP_cons] at hlen
    have hgenerics : tag.bindsTypes → s.generics ≠ [] := by
      intro hbinds hnil
      rw [hbinds, hnil, if_pos rfl] at hlen
      cases hlen
    rw [Settles, Safe, closeBlock_of_tags t htags hgenerics]
    refine h.closed htags rfl rfl ?_
    rw [Session.leave]
    split
    · next hbinds =>
      rw [length_tail, Nat.sub_add_cancel (length_pos_iff.mpr (hgenerics hbinds))]
    · rfl

/-- A statement ends its line, or its block too. -/
theorem finish_spec (statement : Simple) (h : s.Settled o 0) :
    Settles o (finish statement) s := by
  refine .parse (trailingComment_safe s.reader) ?_
  intro comment r₁ hpass
  have h₁ := h.pass hpass
  refine .parse (P := fun a r => a = r₁.stream.rest.head? ∧ r = r₁) ⟨rfl, rfl⟩ ?_
  rintro _ r ⟨rfl, rfl⟩
  rcases hrest : r.stream.rest with _ | ⟨t, rest⟩
  · exact .pure h₁
  · refine .parse (pop_spec hrest) ?_
    rintro t r₂ ⟨rfl, hread⟩
    have h₂ := h₁.read hread
    refine .ite (fun hnewline => ?_) fun _ => .ite (fun hdedent => ?_) fun _ => reject_spec _ _ _
    · rw [balance_newline hnewline] at h₂
      exact .pure h₂
    · rw [balance_dedent hdedent] at h₂
      exact (closeBlock_spec t h₂).done

theorem openBlock_opens (h : s.Settled o 0) (hname : (Named.name header.tag).isEmpty = false) :
    Safe (openBlock header) s fun _ s' => ∃ r : Reader, (s.reading r).Settled o (-1) ∧
      s' = { s with reader := r, scopes := { s.scopes with tags := header.tag :: s.scopes.tags } } := by
  refine .parse (expect_spec (by rfl) s.reader) ?_
  intro _ r₁ h₁
  refine .parse (trailingComment_safe r₁) ?_
  intro comment r₂ h₂
  refine .parse (next_spec _ r₂) ?_
  intro t r₃ hread
  refine .guard fun hindent => ?_
  have hindent : t.is Marker.indent.text := by
    rwa [Bool.not_eq_true, Bool.not_eq_false'] at hindent
  refine .seq (openScope_spec _ hname) ?_
  rintro _ s₄ rfl
  have h₃ := ((h.pass h₁).pass h₂).read hread
  rw [balance_indent hindent] at h₃
  exact .pure ⟨r₃, h₃, rfl⟩

/-- A header opens its block. -/
theorem openBlock_spec (h : s.Settled o 0) (ho : header.tag.isOrdinary) :
    Settles o (openBlock header) s := by
  refine (openBlock_opens h (Tag.name_of_isOrdinary ho)).mono ?_
  rintro _ _ ⟨r, h₁, rfl⟩
  refine h₁.opened rfl rfl ?_ ?_ ?_ ?_
  · rw [Tag.bindsTypes_of_isOrdinary ho]
    rfl
  all_goals
    intro htag
    rw [htag] at ho
    cases ho

/-! ## Raw blocks -/

theorem rawBlock_of_ok {lines : List Text} {r' : Reader} (hname : (Named.name tag).isEmpty = false)
    (hnext : Parse.next Marker.indent.text s.reader = .ok t r)
    (hlines : bounded rawLinesIn r = .ok lines r') :
    rawBlock tag s = .ok lines { s with reader := r', scopes := ⟨s.scopes.tags, some tag⟩ } := by
  rw [rawBlock, discard_bind, bind_of_ok _ (lift_of_ok hnext), bind_of_ok _ (openScope_of_name _ hname),
    bind_of_ok _ (lift_of_ok hlines)]
  rfl

theorem rawBlock_ok {lines : List Text} {s' : Session} (h : rawBlock tag s = .ok lines s') : ∃ t r r',
    Parse.next Marker.indent.text s.reader = .ok t r ∧ bounded rawLinesIn r = .ok lines r' ∧
      (Named.name tag).isEmpty = false ∧ s' = { s with reader := r', scopes := ⟨s.scopes.tags, some tag⟩ } := by
  rw [rawBlock, discard_bind] at h
  obtain ⟨t, s₁, hnext, h⟩ := bind_ok h
  obtain ⟨r, hr, rfl⟩ := lift_ok hnext
  obtain ⟨_, s₂, hopen, h⟩ := bind_ok h
  obtain ⟨hname, rfl⟩ := openScope_ok hopen
  obtain ⟨lines', s₃, hlines, h⟩ := bind_ok h
  obtain ⟨r', hr', rfl⟩ := lift_ok hlines
  cases h
  exact ⟨t, r, r', hr, hr', hname, rfl⟩

/-- A raw block is closed as soon as it was opened. -/
theorem rawBlock_spec {rest : List Token} (h : s.Settled o 0) (hname : (Named.name tag).isEmpty = false)
    (hrest : s.reader.stream.rest = t :: rest) (ht : t.is Marker.indent.text) :
    Settles o (rawBlock tag) s := by
  refine .seq (.discard (.lift (P := fun _ r => s.reader.stream.Reads [t] r.stream)
    ?_)) ?_
  · rw [Safe, next_eq _ hrest]
    exact Reader.reads_advance hrest
  rintro _ _ ⟨_, r₁, hread, rfl⟩
  refine .seq (openScope_spec _ hname) ?_
  rintro _ s₂ rfl
  refine .parse (bounded_spec (rawLinesIn_spec (by omega))) ?_
  rintro lines r₃ ⟨ts, hlines, hbalance⟩
  refine .seq (.discard (closeScope_spec rfl)) ?_
  rintro _ s₄ ⟨_, -, rfl⟩
  have h₃ := (h.read hread).read hlines
  rw [balance_indent ht, hbalance] at h₃
  exact .pure (h₃.of_same rfl rfl rfl)

theorem comment_spec (t : Token) (h : s.Settled o 0) : Settles o (comment t) s := by
  refine .parse (atText_spec _ s.reader) ?_
  rintro (_ | _) r₁ ⟨rfl, hindent⟩
  · refine .parse (lineComment_safe t s.reader) ?_
    intro line r₂ hpass
    exact .pure (h.pass hpass)
  · obtain ⟨u, rest, hrest, hu⟩ := hindent rfl
    exact (rawBlock_spec h rfl hrest hu).done

theorem copyFrom_spec (level : Int) (h : s.Settled o 0) : Settles o (copyFrom level) s := by
  refine .parse (atText_spec _ s.reader) ?_
  rintro (_ | _) r₁ ⟨rfl, hindent⟩
  · exact .parse (rejectNext_spec _ _ fun _ _ => False) fun _ _ h => h.elim
  · obtain ⟨u, rest, hrest, hu⟩ := hindent rfl
    refine .seq (rawBlock_spec h rfl hrest hu) ?_
    intro lines s₁ h₁
    exact .modify (.pure (h₁.of_same rfl rfl rfl))

theorem passthrough_spec (t : Token) (h : s.Settled o 0) : Settles o (passthrough t) s := by
  rw [passthrough_eq]
  refine .parse (atText_spec _ s.reader) ?_
  rintro (_ | _) r₁ ⟨rfl, hcolon⟩
  · exact copyFrom_spec _ h
  · obtain ⟨u, rest, hahead, hu⟩ := hcolon rfl
    refine .parse (pop_spec hahead) ?_
    rintro u r₂ ⟨rfl, hread⟩
    have hplain : u.isMarker = false := by
      rw [isMarker_of_is hu]
      rfl
    exact copyFrom_spec _ (h.pass (Stream.Passes.one hread hplain))

/-! ## Forms -/

theorem openUserType_spec (header : UserTypeHeader) (h : s.Settled o 0) :
    Settles o (Form.userType header).complete s := by
  have htag : (Header.userType header).tag = .userType ∨ (Header.userType header).tag = .template := by
    rw [Header.tag]
    by_cases hp : header.parameters.isEmpty
    · exact .inl (if_pos hp)
    · exact .inr (if_neg hp)
  have hname : (Named.name (Header.userType header).tag).isEmpty = false := by
    refine Tag.name_isEmpty fun word hword => ?_
    rcases htag with htag | htag <;> rw [htag] at hword <;> cases hword
  refine .seq (openBlock_opens h hname) ?_
  rintro clause _ ⟨r', h', rfl⟩
  refine .modify (.pure (h'.opened rfl rfl ?_ ?_ ?_ ?_))
  · have hbinds : (Header.userType header).tag.bindsTypes := by
      rcases htag with htag | htag <;> rw [htag] <;> rfl
    rw [hbinds]
    rfl
  all_goals
    intro hother
    rcases htag with htag | htag <;> rw [htag] at hother <;> cases hother

/-- A form is completed with the scopes in step. -/
theorem complete_spec {l : Lexeme} {f : Form} {v : View} (h : s.Settled o 0) (hf : f.Suits l v) :
    Settles o f.complete s := by
  cases f with
  | line jumps statement =>
    cases jumps with
    | true => exact .modify (finish_spec _ (h.of_same rfl rfl rfl))
    | false => exact finish_spec _ h
  | block header => exact openBlock_spec h (Tag.isOrdinary_of_isPlain hf.2.1)
  | userType header => exact openUserType_spec header h

theorem continuation_spec (t : Token) (h : s.Settled o 0) :
    Settles o (continuation t.lexeme t) s := by
  refine .get ?_
  split
  · exact reject_spec _ _ _
  · refine .modify (.get (.parse ((form_safe t _ s.reader).and
      (form_suits _ t _ s.reader)) ?_))
    rintro f r ⟨⟨-, hpass⟩, hf⟩
    exact complete_spec ((h.pass hpass).of_same rfl rfl rfl) hf

/-! ## Labels -/

/-- A label opens one block, or ends its line and leaves that to the labels after it. -/
theorem labelEnd_spec {more : Token → Translate (List LabelLine)} (label : Label)
    (h : s.Settled o 0) (htop : s.scopes.tags.head? = some .switchBlock)
    (hmore : ∀ t s', s'.Settled o 0 → s'.remaining < s.remaining → Settles o (more t) s') :
    Settles o (labelEnd more label) s := by
  refine .parse (expect_spec (by rfl) s.reader) ?_
  intro _ r₁ h₁
  refine .parse (trailingComment_safe r₁) ?_
  intro comment r₂ h₂
  refine .parse (next_spec _ r₂) ?_
  intro marker r₃ hread
  have hs := ((h.pass h₁).pass h₂).read hread
  refine .ite (fun hindent => ?_) fun _ => .ite (fun hnewline => ?_) fun _ => reject_spec _ _ _
  · rw [balance_indent hindent] at hs
    refine .seq (openScope_spec _ rfl) ?_
    rintro _ _ rfl
    refine .pure (hs.opened rfl rfl rfl (fun _ => htop) ?_ ?_)
    · exact Tag.noConfusion
    · exact Tag.noConfusion
  · rw [balance_newline hnewline] at hs
    refine .parse (next_spec _ r₃) ?_
    intro t r₄ hread'
    refine .guard fun hlabel => ?_
    have hplain := isMarker_of_label hlabel
    have hlen₁ := h₁.remaining
    have hlen₂ := h₂.remaining
    have hlen₃ := Reader.remaining_of_reads hread
    have hlen₄ := Reader.remaining_of_reads hread'
    have hlen : s.remaining = s.reader.remaining := rfl
    refine (hmore t _ (hs.pass (Stream.Passes.one hread' hplain)) ?_).done
    change r₄.remaining < s.remaining
    omega

/-- So are labels, by induction on the budget. -/
theorem labelsIn_spec (t : Token) (h : s.Settled o 0) (hn : s.remaining < n) :
    Settles o (labelsIn n t) s := by
  induction n generalizing s t with
  | zero => omega
  | succ n ih =>
    rw [labelsIn_succ]
    refine .get (.guard fun htop => ?_)
    have htop : s.scopes.tags.head? = some .switchBlock := Classical.not_not.mp htop
    refine .ite (c := t.is "case" = true) (fun _ => ?_) fun _ => ?_
    · refine .parse (expressionList_safe s.reader) ?_
      intro values r hpass
      have hlen := hpass.remaining
      have hs : s.remaining = s.reader.remaining := rfl
      refine labelEnd_spec _ (h.pass hpass) htop fun t' s' h' hlen' => ih t' h' ?_
      change s'.remaining < r.remaining at hlen'
      omega
    · exact labelEnd_spec _ h htop fun t' s' h' hlen' => ih t' h' (by omega)

theorem labels_spec (t : Token) (h : s.Settled o 0) : Settles o (labels t) s := by
  have hforget : ({ s with scopes := s.scopes.forget } : Session).Settled o 0 :=
    h.of_same rfl rfl rfl
  refine .modify (.get ?_)
  exact (labelsIn_spec t hforget (by omega)).done

/-! ## Clauses -/

/-- So is a marker. -/
theorem marker_spec {m : Marker} (first : Bool) (ht : t.is m.text) (h : s.Settled o (-balance [t])) :
    Settles o (marker m first t) s := by
  cases m with
  | begin =>
    have hbalance : balance [t] = 0 := by
      refine balance_other ?_ ?_ <;> rw [Token.is, (Token.is_iff.mp ht).2] <;>
        simp only [Bool.and_eq_false_iff] <;> exact .inr rfl
    rw [hbalance] at h
    cases first with
    | true => exact .pure h
    | false => exact reject_spec _ _ _
  | newline =>
    rw [balance_newline ht] at h
    exact .pure h
  | dedent =>
    rw [balance_dedent ht] at h
    exact (closeBlock_spec t h).done
  | indent => exact reject_spec _ _ _

theorem attribute_isEmpty (h : t.lexeme = .keyword .attributeWord) : t.text.isEmpty = false := by
  rw [lexeme] at h
  split at h
  · cases h
  · rw [Lexeme.ofText] at h
    split at h
    · next k hk =>
      obtain ⟨b, hb, -⟩ := Keyword.head_of_mem_table _ (Keyword.mem_table_of_ofText? hk)
      obtain ⟨rest, htext⟩ := head?_eq_some_iff.mp hb
      exact congrArg List.isEmpty htext
    · split at h <;> cases h

/-- A clause settles the session, whatever token starts it. Attributes before it nest, one token
each. -/
theorem clauseIn_spec (h : s.Settled o (-balance [t])) (hn : s.remaining < n) :
    Settles o (clauseIn n t) s := by
  induction n generalizing s t with
  | zero => omega
  | succ n ih =>
    rw [clauseIn_succ]
    refine .seq (recordDispatch_spec t h) ?_
    rintro first s₁ ⟨h₁, hreader⟩
    refine .guard fun hraw => ?_
    have hplain : t.isMarker = false → s₁.Settled o 0 := by
      intro hp
      have hbalance : balance [t] = 0 :=
        balance_plain fun u hu => by rw [mem_singleton.mp hu]; exact hp
      rw [hbalance] at h₁
      exact h₁
    unfold clauseFrom
    split
    · next m hlex => exact marker_spec first (is_of_lexeme_marker hlex) h₁
    · next hlex =>
      refine .ite (fun hsign => ?_) fun _ => reject_spec _ _ _
      exact comment_spec t (hplain (isMarker_of_isCommentSign hsign))
    · next hlex =>
      refine .modify (.modify ?_)
      have h₂ : ({ s₁ with scopes := s₁.scopes.forget, terminated := false } :
          Session).Settled o 0 :=
        (hplain (isMarker_of_lexeme hlex)).of_same rfl rfl rfl
      refine .parse (atText_spec _ _) ?_
      rintro (_ | _) _ ⟨rfl, -⟩
      · refine .parse (next_spec _ _) ?_
        intro after r hread
        refine .guard fun _ => ?_
        -- The token after the attribute may be a marker, whose share of the balance is still due.
        have h₃ := h₂.read hread
        rw [Int.zero_sub] at h₃
        have hlen := Reader.remaining_of_reads hread
        refine (ih h₃ ?_).done
        have hlen₁ : s₁.reader.remaining = s.remaining := by rw [hreader]; rfl
        change r.remaining < n
        change r.remaining + 1 = s₁.reader.remaining at hlen
        omega
      · refine openBlock_spec h₂ ?_
        rw [Header.tag, Tag.isOrdinary, attribute_isEmpty hlex]
        rfl
    · next hlex =>
      have h₂ := hplain (isMarker_of_lexeme hlex)
      exact .modify (.modify (passthrough_spec t (h₂.of_same rfl rfl rfl)))
    case h_5 hlex | h_6 hlex =>
      have h₂ := hplain (isMarker_of_lexeme hlex)
      exact .modify (labels_spec t (h₂.of_same rfl rfl rfl))
    · next hmarker _ _ _ _ _ =>
      have h₂ := hplain (isMarker_of_lexeme_ne hmarker)
      exact .modify (continuation_spec t (h₂.of_same rfl rfl rfl))

/-- Every clause is safe and leaves the scopes in step. -/
theorem clause_spec (h : s.Settled o (-balance [t])) : Settles o (clause t) s :=
  Safe.get (clauseIn_spec h (by omega))

end Translate

end Offside
