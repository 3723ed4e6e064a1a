/-
A clause does not depend on what comes after it.

Most clauses end by reading the marker of their line (`Finishes`). A comment does not; it looks for
a text or a block that belongs to it, and had there been one then it would have read it.
-/
import Offside.Proofs.Parse.Trimming
import Offside.Proofs.Translate.Locality

set_option autoImplicit false

namespace Offside

open List Parse

instance : Ahead Session where
  ahead s := s.reader.stream.rest
  cut s ts := { s with reader := cut s.reader ts }

/-! ## States of the translator -/

section

variable {α β : Type} {k : Reach}

theorem Trims.parse {p q : Parse α} (h : Trims k p q) : Trims k (liftM p : Translate α) (liftM q : Translate α) where
  suffix := fun hq => by
    obtain ⟨r, hr, rfl⟩ := lift_ok hq
    exact h.suffix hr
  agrees := fun {s a s' us vs after} hq hs hs' hafter hvs => by
    obtain ⟨r, hr, rfl⟩ := lift_ok hq
    rcases h.agrees hr hs hs' hafter hvs with hp | ⟨v, r', hp⟩
    · exact .inl (lift_of_ok (s := cut s us) hp)
    · have hreader : p (cut s us).reader = .error (.violated v) r' := hp
      exact .inr ⟨v, { cut s us with reader := r' }, by rw [lift_eq, Translate.parse, hreader]⟩

theorem Finishes.parse {p q : Parse α} (h : Finishes p q) :
    Finishes (liftM p : Translate α) (liftM q : Translate α) where
  toTrims := h.toTrims.parse
  takes := fun hq hs => by
    obtain ⟨r, hr, rfl⟩ := lift_ok hq
    exact h.takes hr hs

/-- What reads nothing does not look ahead. -/
theorem Trims.silent {p : Translate α}
    (h : ∀ {s a s'}, p s = .ok a s' → ahead s' = ahead s ∧ ∀ ts, p (cut s ts) = .ok a (cut s' ts)) : Trims k p p where
  suffix := fun hq => ⟨[], (h hq).1⟩
  agrees := fun hq hs hs' _ _ => by
    rw [(h hq).1] at hs'
    obtain rfl := append_cancel_right (hs.symm.trans hs')
    exact .inl ((h hq).2 _)

/-- The state may be looked at, except for the tokens ahead. -/
theorem Trims.get {f g : Session → Translate α}
    (h : ∀ s ts, ts.length ≤ (ahead s).length → Trims k (f (cut s ts)) (g s)) :
    Trims k (MonadState.get >>= f) (MonadState.get >>= g) where
  suffix := fun {s a s'} hq => (h s (ahead s) (Nat.le_refl _)).suffix hq
  agrees := fun {s a s' us vs after} hq hs hs' hafter hvs => by
    have hle : us.length ≤ (ahead s).length := by
      rw [hs, length_append]
      omega
    exact (h s us hle).agrees hq hs hs' hafter hvs

theorem Finishes.get {f g : Session → Translate α}
    (h : ∀ s ts, ts.length ≤ (ahead s).length → Finishes (f (cut s ts)) (g s)) :
    Finishes (MonadState.get >>= f) (MonadState.get >>= g) where
  toTrims := .get fun s ts hts => (h s ts hts).toTrims
  takes := fun {s _ _} hq hs => (h s (ahead s) (Nat.le_refl _)).takes hq hs

end

namespace Translate

variable {k : Reach}

theorem setTerminated_trims (b : Bool) : Trims k (setTerminated b) (setTerminated b) :=
  Trims.silent fun hq => by
    cases hq
    exact ⟨rfl, fun _ => rfl⟩

theorem forgetPrevious_trims : Trims k forgetPrevious forgetPrevious :=
  Trims.silent fun hq => by
    cases hq
    exact ⟨rfl, fun _ => rfl⟩

theorem openGenerics_trims (names : List Text) : Trims k (openGenerics names) (openGenerics names) :=
  Trims.silent fun hq => by
    cases hq
    exact ⟨rfl, fun _ => rfl⟩

theorem recordDispatch_trims (t : Token) : Trims k (recordDispatch t) (recordDispatch t) :=
  Trims.silent fun hq => by
    cases hq
    exact ⟨rfl, fun _ => rfl⟩

theorem openScope_trims (tag : Tag) : Trims k (openScope tag) (openScope tag) :=
  Trims.silent fun hq => by
    obtain ⟨hname, rfl⟩ := openScope_ok hq
    exact ⟨rfl, fun _ => openScope_of_name _ hname⟩

theorem closeScope_trims : Trims k closeScope closeScope :=
  Trims.silent fun hq => by
    obtain ⟨tags, htags, rfl⟩ := closeScope_ok hq
    exact ⟨rfl, fun _ => closeScope_of_tags htags⟩

/-! ## Ends of lines and blocks -/

theorem closeBlock_trims (t : Token) : Trims k (closeBlock t) (closeBlock t) :=
  Trims.silent fun hq => by
    obtain ⟨tag, tags, htags, hgenerics, rfl, rfl⟩ := closeBlock_ok hq
    exact ⟨rfl, fun _ => closeBlock_of_tags t htags hgenerics⟩

/-- A branch on whether there is a token ahead, which is read if there is. -/
theorem ifNone_finishes {α : Type} {a : α} {p : Translate α} (hp : Finishes p p) :
    Finishes (do if (← peek?).isNone then return a else p : Translate α)
      (do if (← peek?).isNone then return a else p : Translate α) := by
  have hlook : ∀ s : Session, (do if (← peek?).isNone then return a else p : Translate α) s =
      if ahead s = [] then .ok a s else p s := by
    intro s
    rw [bind_of_ok _ (lift_of_ok (peek?_eq s.reader))]
    change _ = if s.reader.stream.rest = [] then _ else _
    cases s.reader.stream.rest <;> rfl
  refine ⟨⟨fun {s a s'} hq => ?_, fun {s a s' us vs after} hq hs hs' hafter hvs => ?_⟩, fun {s a s'} hq hs => ?_⟩
  · rw [hlook] at hq
    split at hq
    · cases hq
      exact suffix_rfl
    · exact hp.suffix hq
  · -- There is something after the line, so the marker of the line is read.
    have hnil : ahead s ≠ [] := by
      rw [hs]
      exact append_ne_nil_of_right_ne_nil us hafter
    rw [hlook, if_neg hnil] at hq
    have hus : us ≠ [] := by
      rintro rfl
      have hlt := hp.takes hq hnil
      rw [hs, hs', nil_append, length_append] at hlt
      omega
    have hahead : ahead (cut s us) = us := rfl
    rw [Violates, hlook, hahead, if_neg hus]
    exact hp.agrees hq hs hs' hafter hvs
  · rw [hlook, if_neg hs] at hq
    exact hp.takes hq hs

/-- A statement reads the marker of its line. -/
theorem finish_finishes (statement : Simple) : Finishes (finish statement) (finish statement) := by
  refine .after Parse.trailingComment_trims.parse fun comment => ifNone_finishes ?_
  refine Parse.readsToken_pop.finishes.parse.bind fun t => ?_
  refine .ite (fun _ => .pure _) fun _ => .ite (fun _ => ?_) fun _ => .throw
  exact (closeBlock_trims t).bind fun closing => .pure _

theorem openBlock_finishes (header : Header) : Finishes (openBlock header) (openBlock header) := by
  refine .after (expect_trims _).parse fun _ => ?_
  refine .after Parse.trailingComment_trims.parse fun comment => ?_
  refine (readsToken_next _).finishes.parse.bind fun t => .guard ?_
  exact (openScope_trims _).bind fun _ => .pure _

/-! ## Raw blocks and comments -/

theorem rawBlock_finishes (tag : Tag) : Finishes (rawBlock tag) (rawBlock tag) := by
  rw [rawBlock, discard_bind]
  refine (readsToken_next _).finishes.parse.bind fun t => (openScope_trims tag).bind fun _ => ?_
  refine Parse.rawLines_exact.parse.bind fun lines => ?_
  exact closeScope_trims.discard.bind fun _ => .pure _

theorem copyFrom_finishes (level : Int) : Finishes (copyFrom level) (copyFrom level) := by
  refine .after (atText_trims _).parse ?_
  rintro (_ | _)
  · exact .never fun s a s' => Ensures.rejectNext (Q := fun _ _ => False) a s'
  · refine (rawBlock_finishes _).bind fun lines => (setTerminated_trims _).bind fun _ => ?_
    exact .pure _

theorem passthrough_finishes (t : Token) : Finishes (passthrough t) (passthrough t) := by
  rw [passthrough_eq]
  refine .after (atText_trims _).parse ?_
  rintro (_ | _)
  · exact copyFrom_finishes _
  · exact .after Parse.pop_trims.parse fun opener => copyFrom_finishes _

/-- A branch on whether a token is next, which is read if it is. Where it is not, the next token may
as well be missing. -/
theorem ifAtText_exact {α : Type} {text : Text} {p q p' q' : Translate α} (hp : Finishes p p')
    (hq : Trims .exact q q') : Trims .exact (do if ← atText text then p else q : Translate α)
      (do if ← atText text then p' else q' : Translate α) := by
  have hlook : ∀ (p q : Translate α) (s : Session),
      (do if ← atText text then p else q : Translate α) s =
        if ((ahead s).head?.map fun t : Token => t.is text).getD false then p s else q s := by
    intro p q s
    rw [bind_of_ok _ (lift_of_ok (atText_eq text s.reader))]
    exact apply_ite (fun m : Translate α => m s) _ _ _
  refine ⟨fun {s a s'} h => ?_, fun {s a s' us vs after} h hs hs' hafter hvs => ?_⟩
  · rw [hlook] at h
    split at h
    · exact hp.suffix h
    · exact hq.suffix h
  have hahead : ahead (cut s us) = us := rfl
  rw [Violates, hlook, hahead]
  rw [hlook, hs] at h
  cases us with
  | nil =>
    split at h
    · -- The token would have been read from what is missing.
      have hne : ahead s ≠ [] := by
        rw [hs]
        exact hafter
      have hlt := hp.takes h hne
      rw [hs, hs', nil_append, length_append] at hlt
      omega
    · exact hq.agrees h hs hs' hafter hvs
  | cons u us =>
    rw [cons_append, head?_cons] at h
    rw [head?_cons]
    split at h
    · next hu =>
      rw [if_pos hu]
      exact hp.agrees h hs hs' hafter hvs
    · next hu =>
      rw [if_neg hu]
      exact hq.agrees h hs hs' hafter hvs

/-- A comment would have read the text or the block next to it. -/
theorem comment_exact (t : Token) : Trims .exact (comment t) (comment t) := by
  refine ifAtText_exact ?_ ?_
  · exact (rawBlock_finishes .comment).bind fun lines => .pure _
  · have hline : Trims .exact (lineComment t) (lineComment t) :=
      Parse.commentText_exact.bind fun text => .pure _
    exact hline.parse.bind fun comment => .pure _

/-! ## Forms -/

/-- Every form reads the marker of its line. -/
theorem complete_finishes (f : Form) : Finishes f.complete f.complete := by
  cases f with
  | line jumps statement =>
    cases jumps with
    | false => exact finish_finishes statement
    | true => exact .after (setTerminated_trims true) fun _ => finish_finishes statement
  | block header => exact openBlock_finishes header
  | userType header =>
    refine (openBlock_finishes _).bind fun clause => ?_
    exact (openGenerics_trims _).bind fun _ => .pure _

theorem body_finishes (t : Token) : Finishes (body t.lexeme t) (body t.lexeme t) :=
  Finishes.get fun s _ _ => .after (form_trims t s.view).parse complete_finishes

theorem labelEnd_finishes {more more' : Token → Translate (List LabelLine)}
    (hmore : ∀ t, Trims .exact (more t) (more' t)) (label : Label) :
    Finishes (labelEnd more label) (labelEnd more' label) := by
  refine .after (expect_trims _).parse fun _ => ?_
  refine .after Parse.trailingComment_trims.parse fun comment => ?_
  refine (readsToken_next _).finishes.parse.bind fun marker => .ite (fun _ => ?_) fun _ => ?_
  · exact (openScope_trims _).bind fun _ => .pure _
  refine .ite (fun _ => ?_) fun _ => .throw
  refine (readsToken_next _).trims.parse.bind fun t => .guard ?_
  exact (hmore t).bind fun lines => .pure _

theorem labelsIn_succ_finishes {m n : Nat} (t : Token) (h : ∀ t, Trims .exact (labelsIn m t) (labelsIn n t)) :
    Finishes (labelsIn (m + 1) t) (labelsIn (n + 1) t) := by
  rw [labelsIn_succ, labelsIn_succ]
  refine .get fun s ts _ => .guard (.ite (fun _ => ?_) fun _ => ?_)
  · exact .after Parse.expressionList_trims.parse fun values => labelEnd_finishes h _
  · exact labelEnd_finishes h _

/-- So do labels. -/
theorem labelsIn_exact : ∀ n, ∀ m ≤ n, ∀ t, Trims .exact (labelsIn m t) (labelsIn n t) := by
  refine .budget (p := labelsIn) (q := labelsIn) (fun _ _ => ⟨_, _, rfl⟩)
    (fun _ _ _ _ hq => nomatch hq) fun n ih m hmn t => ?_
  exact (labelsIn_succ_finishes t (ih m hmn)).toTrims

theorem labels_finishes (t : Token) : Finishes (labels t) (labels t) := by
  refine .after forgetPrevious_trims fun _ => .get fun s ts hts => ?_
  refine (labelsIn_succ_finishes t fun t => ?_).bind fun lines => .pure _
  exact labelsIn_exact _ _ hts t

theorem continuation_finishes (t : Token) : Finishes (continuation t.lexeme t) (continuation t.lexeme t) := by
  refine .get fun s ts _ => ?_
  generalize complaint? t.lexeme s.scopes.previous = reason?
  cases reason? with
  | some reason => exact .throw
  | none => exact .after forgetPrevious_trims fun _ => body_finishes t

/-! ## Clauses -/

theorem marker_exact (m : Marker) (first : Bool) (t : Token) :
    Trims .exact (marker m first t) (marker m first t) := by
  cases m with
  | begin => exact .ite (fun _ => .pure _) fun _ => .throw
  | newline => exact .pure _
  | dedent => exact (closeBlock_trims t).bind fun closing => .pure _
  | indent => exact .throw

/-- No clause depends on what comes after it. -/
theorem clauseIn_exact : ∀ n, ∀ m ≤ n, ∀ t, Trims .exact (clauseIn m t) (clauseIn n t) := by
  refine .budget (p := clauseIn) (q := clauseIn) (fun _ _ => ⟨_, _, rfl⟩)
    (fun _ _ _ _ hq => nomatch hq) fun n ih m hmn t => ?_
  rw [clauseIn_succ, clauseIn_succ]
  refine (recordDispatch_trims t).bind fun first => .guard ?_
  unfold clauseFrom
  split
  · exact marker_exact _ _ t
  · exact .ite (fun _ => comment_exact t) fun _ => .throw
  · refine forgetPrevious_trims.bind fun _ => (setTerminated_trims false).bind fun _ => ?_
    refine (Finishes.after (atText_trims _).parse ?_).toTrims
    rintro (_ | _)
    · refine (readsToken_next _).finishes.parse.bind fun after => .guard ?_
      exact (ih m hmn after).bind fun clause => .pure _
    · exact openBlock_finishes _
  · refine forgetPrevious_trims.bind fun _ => (setTerminated_trims false).bind fun _ => ?_
    exact (passthrough_finishes t).toTrims
  case h_5 | h_6 => exact (setTerminated_trims false).bind fun _ => (labels_finishes t).toTrims
  · exact (setTerminated_trims false).bind fun _ => (continuation_finishes t).toTrims

theorem clause_exact (t : Token) : Trims .exact (clause t) (clause t) :=
  Trims.get fun _ _ hts => clauseIn_exact _ _ (Nat.succ_le_succ hts) t

end Translate

end Offside
