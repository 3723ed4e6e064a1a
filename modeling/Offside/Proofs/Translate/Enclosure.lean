/-
What a clause does to the scopes.

What a clause makes of the scopes around it can be told from the clause alone (`Clause.effect`). The
translator is walked through once for this, in `clauseIn_turns`.
-/
import Offside.Proofs.Translate.Soundness

set_option autoImplicit false

namespace Offside

/-! ## The effect of a clause -/

/-- The scopes around a clause, and the type parameters that they bind. -/
structure Enclosure where
  scopes : Scopes Tag
  generics : List (List Text)

def Session.enclosure (s : Session) : Enclosure := ⟨s.scopes, s.generics⟩

namespace Enclosure

def forget (e : Enclosure) : Enclosure := { e with scopes := e.scopes.forget }

def opened (tag : Tag) (e : Enclosure) : Enclosure :=
  { e with scopes := { e.scopes with tags := tag :: e.scopes.tags } }

def closed (e : Enclosure) : Enclosure :=
  match e.scopes.tags with
  | [] => { e with scopes := {} }
  | tag :: tags => ⟨⟨tags, some tag⟩, if tag.bindsTypes then e.generics.tail else e.generics⟩

def passed (tag : Tag) (e : Enclosure) : Enclosure := { e with scopes := { e.scopes with previous := some tag } }

end Enclosure

def Header.binds : Header → List (List Text)
  | .userType header => [header.parameters]
  | _ => []

def Ending.effect : Ending → Enclosure → Enclosure
  | .closing _, e => e.closed
  | _, e => e

def Clause.effect : Clause → Enclosure → Enclosure
  | .start, e | .newline _, e | .lineComment _, e => e
  | .dedent _, e => e.closed
  | .blockComment .., e => e.passed .comment
  | .passthrough .., e => e.passed .passthrough
  | .simple _ _ ending, e => ending.effect e.forget
  | .block header _ _, e => { e.forget.opened header.tag with generics := header.binds ++ e.generics }
  | .labels _, e => e.forget.opened .caseBody
  | .attributed _ c, e => c.effect e.forget

/-- The clause leads from these scopes to `s`, and its header takes over what was seen of them. -/
structure Enclosure.Turns (e : Enclosure) (v : View) (c : Clause) (s : Session) : Prop where
  effect : s.enclosure = c.effect e
  heeds : ∀ header ∈ c.header?, header.Heeds v

theorem Enclosure.Turns.of_none {e : Enclosure} {v : View} {c : Clause} {s : Session} (hc : c.header? = none)
    (h : s.enclosure = c.effect e) : e.Turns v c s := ⟨h, fun _ hheader => by rw [hc] at hheader; cases hheader⟩

/-! ## The mark of a jump -/

def Clause.closing? : Clause → Option Closing
  | .dedent c => some c
  | .simple _ _ (.closing c) => some c
  | .attributed _ c => c.closing?
  | _ => none

/-- What became of the scopes `tags` in a clause, and what of the mark. In the end of the clause, or
before it closes a scope, the mark is `jumped`. -/
inductive Session.Tracks (tags : List Tag) (jumped : Bool) (c : Clause) (s : Session) : Prop
  | stays (htags : s.scopes.tags = tags) (hmark : s.terminated = jumped)
  | opens (tag : Tag) (htags : s.scopes.tags = tag :: tags) (hjumped : jumped = false) (hmark : s.terminated = false)
  | closes (tag : Tag) (htags : tags = tag :: s.scopes.tags) (hmark : s.terminated = false)
      (hdedent : s.stream.current.is Marker.dedent.text)
      (hclosing : c.closing? = some (tag.closing jumped s.stream.level))

theorem Session.Tracks.attributed {tags : List Tag} {jumped : Bool} {c : Clause} {s : Session}
    (h : Session.Tracks tags jumped c s) (word : Text) : Session.Tracks tags jumped (.attributed word c) s := by
  cases h with
  | stays htags hmark => exact .stays htags hmark
  | opens tag htags hjumped hmark => exact .opens tag htags hjumped hmark
  | closes tag htags hmark hdedent hclosing => exact .closes tag htags hmark hdedent hclosing

theorem Session.Tracks.of_dedent {t : Token} {tag : Tag} {tags : List Tag} {jumped : Bool} {c : Clause} {s : Session}
    (ht : t.is Marker.dedent.text) (hcurrent : s.stream.current = t) (hmark : s.terminated = false)
    (htags : tags = tag :: s.scopes.tags) (hc : c.closing? = some (tag.closing jumped t.level)) :
    s.Tracks tags jumped c := by
  subst hcurrent
  exact .closes tag htags hmark ht hc

/-- A clause that starts in `e`, where the mark is `jumped` when it ends: its effect, and what it
does to the mark. -/
structure Enclosure.Marks (e : Enclosure) (v : View) (jumped : Bool) (c : Clause) (s : Session) : Prop where
  turns : e.Turns v c s
  tracks : s.Tracks e.scopes.tags jumped c

theorem Parse.pop_current (r : Reader) : Ensures Parse.pop r fun t r' => r'.stream.current = t := by
  intro t r' hm
  rw [Parse.pop, Stream.pop] at hm
  cases hrest : r.stream.rest with
  | nil => rw [hrest] at hm; cases hm
  | cons u rest =>
    rw [hrest] at hm
    cases hm
    rfl

namespace Translate

open Session (Tracks)

variable {s : Session} {e : Enclosure} {v : View}

/-- The end of a block closes the last scope and clears the mark. -/
theorem closeBlock_effect (t : Token) (s : Session) : Ensures (closeBlock t) s fun c s' =>
    s'.enclosure = s.enclosure.closed ∧ s'.terminated = false ∧ s'.reader = s.reader ∧
      ∃ tag, s.scopes.tags = tag :: s'.scopes.tags ∧ c = tag.closing s.terminated t.level := by
  intro c s' hm
  obtain ⟨tag, tags, htags, -, rfl, rfl⟩ := closeBlock_ok hm
  refine ⟨?_, rfl, rfl, tag, htags, rfl⟩
  have hscopes : s.enclosure.scopes.tags = tag :: tags := htags
  rw [Enclosure.closed, hscopes]
  rfl

/-- A statement has the effect of its ending. -/
theorem finish_effect (statement : Simple) (h : s.enclosure = e) :
    Ensures (finish statement) s fun c s' => (∃ comment ending, c = .simple statement comment ending ∧
      s'.enclosure = ending.effect e) ∧ s'.Tracks e.scopes.tags s.terminated c := by
  subst h
  refine .skip fun comment r => .skip fun next r => .ite (fun _ => ?_) fun _ => ?_
  · exact .pure ⟨⟨comment, .input, rfl, rfl⟩, .stays rfl rfl⟩
  refine .parse (Parse.pop_current r) fun t r hcurrent => .ite (fun _ => ?_) fun _ => ?_
  · exact .pure ⟨⟨comment, .line t.level, rfl, rfl⟩, .stays rfl rfl⟩
  refine .ite (fun hdedent => ?_) fun _ => .throw
  refine .seq (closeBlock_effect t _) ?_
  rintro c s' ⟨h, hmark, hreader, tag, htags, rfl⟩
  refine .pure ⟨⟨comment, .closing _, rfl, h⟩, .of_dedent hdedent ?_ hmark htags rfl⟩
  rw [Session.stream, hreader]
  exact hcurrent

/-- A header opens its scope. -/
theorem openBlock_effect (header : Header) (h : s.enclosure = e) (hmark : s.terminated = false) :
    Ensures (openBlock header) s fun c s' => ∃ comment level, c = .block header comment level ∧
      s'.enclosure = e.opened header.tag ∧ s'.Tracks e.scopes.tags false c := by
  subst h
  refine .skip fun _ r => .skip fun comment r => .skip fun t r => ?_
  refine .guard fun _ => .seq (openScope_ensures _ _) ?_
  rintro _ _ rfl
  exact .pure ⟨comment, t.level, rfl, rfl, .opens header.tag rfl rfl hmark⟩

/-- A raw block is open and closed at once. -/
theorem rawBlock_effect (tag : Tag) (s : Session) : Ensures (rawBlock tag) s fun _ s' =>
    s'.enclosure = s.enclosure.passed tag ∧ s'.terminated = s.terminated := by
  intro lines s' hm
  obtain ⟨_, r, r', -, -, -, rfl⟩ := rawBlock_ok hm
  exact ⟨rfl, rfl⟩

theorem comment_turns (t : Token) (s : Session) : Ensures (comment t) s (s.enclosure.Marks v s.terminated) := by
  refine .skip fun atIndent r => ?_
  cases atIndent with
  | false => exact .skip fun c r => .pure ⟨.of_none rfl rfl, .stays rfl rfl⟩
  | true =>
    refine .seq (rawBlock_effect .comment _) ?_
    rintro lines s' ⟨h, hmark⟩
    exact .pure ⟨.of_none rfl h, .stays (congrArg (·.scopes.tags) h) hmark⟩

theorem passthrough_turns (t : Token) (h : s.enclosure = e.forget) : Ensures (passthrough t) s (e.Turns v) := by
  have hcopy : ∀ (level : Int) (s : Session), s.enclosure = e.forget → Ensures (copyFrom level) s (e.Turns v) := by
    refine fun level s h => .skip fun atIndent r => ?_
    cases atIndent with
    | false => exact .rejectNext
    | true =>
      have hpassed := congrArg (Enclosure.passed .passthrough) h
      refine .seq (rawBlock_effect .passthrough _) fun lines s' h' => .modify (.pure ?_)
      exact .of_none rfl (h'.1.trans hpassed)
  rw [passthrough_eq]
  refine .skip fun atColon r => ?_
  cases atColon with
  | false => exact hcopy _ _ h
  | true => exact .skip fun opener r => hcopy _ _ h

/-- Labels open one case body together. -/
theorem labelsIn_effect (n : Nat) (t : Token) (h : s.enclosure = e) :
    Ensures (labelsIn n t) s fun _ s' => s'.enclosure = e.opened .caseBody ∧ s'.terminated = s.terminated := by
  induction n generalizing t s with
  | zero => exact .throw
  | succ n ih =>
    have hend : ∀ (label : Label) (s : Session), s.enclosure = e →
        Ensures (labelEnd (labelsIn n) label) s fun _ s' =>
          s'.enclosure = e.opened .caseBody ∧ s'.terminated = s.terminated := by
      intro label s h
      refine .skip fun _ r => .skip fun comment r => .skip fun marker r => ?_
      refine .ite (fun _ => ?_) fun _ => .ite (fun _ => ?_) fun _ => .throw
      · refine .seq (openScope_ensures _ _) ?_
        rintro _ _ rfl
        exact .pure ⟨congrArg (Enclosure.opened .caseBody) h, rfl⟩
      · refine .skip fun t r => .guard fun _ => ?_
        exact .seq (ih t h) fun lines s' h' => .pure h'
    rw [labelsIn_succ]
    refine .get (.guard fun _ => .ite (c := t.is "case" = true) (fun _ => ?_) fun _ => ?_)
    · exact .skip fun values r => hend _ _ h
    · exact hend _ _ h

theorem labels_turns (t : Token) (h : s.terminated = false) :
    Ensures (labels t) s (s.enclosure.Marks v false) := by
  refine .modify (.get (.seq (labelsIn_effect _ t rfl) ?_))
  rintro lines s' ⟨heffect, hmark⟩
  exact .pure ⟨.of_none rfl heffect,
    .opens .caseBody (congrArg (·.scopes.tags) heffect) rfl (hmark.trans h)⟩

theorem marker_turns (m : Marker) (first : Bool) (t : Token) (s : Session) :
    Ensures (marker m first t) s fun c s' => s.enclosure.Turns v c s' ∧
      (t.is m.text → s.stream.current = t → s'.Tracks s.scopes.tags s.terminated c) := by
  cases m with
  | begin =>
    cases first with
    | true => exact .pure ⟨.of_none rfl rfl, fun _ _ => .stays rfl rfl⟩
    | false => exact .throw
  | newline => exact .pure ⟨.of_none rfl rfl, fun _ _ => .stays rfl rfl⟩
  | dedent =>
    refine .seq (closeBlock_effect t s) ?_
    rintro c s' ⟨h, hmark, hreader, tag, htags, rfl⟩
    refine .pure ⟨.of_none rfl h, fun ht hcurrent => .of_dedent ht ?_ hmark htags rfl⟩
    rw [Session.stream, hreader]
    exact hcurrent
  | indent => exact .throw

/-- A form has the effect of its clause, and marks a jump. -/
theorem complete_turns {l : Lexeme} {f : Form} (hf : f.Suits l v) (h : s.enclosure = e.forget)
    (hmark : s.terminated = false) : Ensures f.complete s (e.Marks v l.jumps) := by
  cases f with
  | line jumps statement =>
    obtain rfl : jumps = l.jumps := hf
    have hfinish : ∀ s₁ : Session, s₁.enclosure = e.forget →
        Ensures (finish statement) s₁ (e.Marks v s₁.terminated) := by
      refine fun s₁ h₁ => (finish_effect statement h₁).mono ?_
      rintro _ s' ⟨⟨comment, ending, rfl, h⟩, htracks⟩
      exact ⟨.of_none rfl h, htracks⟩
    cases l.jumps with
    | true => exact .modify (hfinish _ h)
    | false =>
      have hline := hfinish s h
      rw [hmark] at hline
      exact hline
  | block header =>
    refine (openBlock_effect header h hmark).mono ?_
    rintro _ s' ⟨comment, level, rfl, h, htracks⟩
    refine ⟨⟨h.trans ?_, fun _ hheader => Option.some.inj hheader ▸ hf.2.2⟩, by rw [hf.1]; exact htracks⟩
    have hnone : header.binds = [] := by
      cases header with
      | userType => cases hf.2.1
      | _ => rfl
    rw [Clause.effect, hnone]
    rfl
  | userType header =>
    rw [show l.jumps = false from hf]
    refine .seq (openBlock_effect (.userType header) h hmark) ?_
    rintro _ s' ⟨comment, level, rfl, h, htracks⟩
    -- The type parameters are bound when the block is open.
    refine .modify (.pure ⟨⟨?_, fun _ hheader => Option.some.inj hheader ▸ trivial⟩, ?_⟩)
    · exact congrArg (fun e' : Enclosure => ({ e' with generics := header.parameters :: e'.generics } : Enclosure)) h
    · cases htracks with
      | stays htags hmark => exact .stays htags hmark
      | opens tag htags hjumped hmark => exact .opens tag htags hjumped hmark
      | closes tag htags hmark hdedent hclosing => exact .closes tag htags hmark hdedent hclosing

theorem continuation_turns (l : Lexeme) (t : Token) (h : s.terminated = false) :
    Ensures (continuation l t) s (s.enclosure.Marks s.view l.jumps) := by
  refine .get ?_
  split
  · exact .throw
  · refine .modify (.get (.parse (Parse.form_suits l t _ _) fun f r hf => ?_))
    exact complete_turns hf rfl h

/-- Every clause has its effect, by induction on the budget. -/
theorem clauseIn_turns (n : Nat) (t : Token) (s : Session) : Ensures (clauseIn n t) s (s.enclosure.Turns s.view) := by
  induction n generalizing t s with
  | zero => exact .throw
  | succ n ih =>
    refine .clauseIn fun first trace _ => ?_
    unfold clauseFrom
    split
    · exact (marker_turns _ first t _).mono fun _ _ h => h.1
    · refine .ite (fun _ => ?_) fun _ => .throw
      exact (comment_turns t _).mono fun _ _ h => h.turns
    · refine .modify (.modify (.skip fun atColon r => ?_))
      cases atColon with
      | true =>
        refine (openBlock_effect (.attributes t.text) rfl rfl).mono ?_
        rintro _ s' ⟨comment, level, rfl, h, -⟩
        exact ⟨h, fun _ hheader => Option.some.inj hheader ▸ trivial⟩
      | false =>
        refine .skip fun after r => .guard fun _ => .seq (ih after _) fun c s' h => ?_
        exact .pure ⟨h.effect, h.heeds⟩
    · exact .modify (.modify (passthrough_turns t rfl))
    case h_5 | h_6 => exact .modify ((labels_turns t rfl).mono fun _ _ h => h.turns)
    · exact .modify ((continuation_turns _ t rfl).mono fun _ _ h => h.turns)

end Translate

end Offside
