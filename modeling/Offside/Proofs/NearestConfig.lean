/-
The configuration that holds for a directory.

The search goes up element by element, and what it finds is said of paths: which directories one is
in (`Path.Within`), and what the path of a file in it is (`Path.entry`). The nearest of them is the
longest.
-/
import Offside.Command.Setup
import Offside.Proofs.Disk
import Offside.Proofs.Layout.Line

set_option autoImplicit false

open List

namespace Offside

/-! ## Directories above a directory -/

namespace Path

variable {dir a b name : Text} {elements outer : List Text}

/-- The directories that a directory is in: itself, the root, and those that its path goes through. -/
def Within (dir a : Text) : Prop := a = dir ∨ a = [slash] ∨ a ≠ [] ∧ a ++ [slash] <+: dir

/-- The path of something in a directory. -/
def entry (dir name : Text) : Text := if dir = [slash] then slash :: name else dir ++ slash :: name

/-- A directory that holds another is a beginning of its path. -/
theorem Within.isPrefix (h : Within dir a) (hdir : isAbsolute dir) : a <+: dir := by
  rcases h with rfl | rfl | ⟨-, h⟩
  · exact prefix_rfl
  · obtain ⟨rest, rfl⟩ := head?_eq_some_iff.mp (of_decide_eq_true hdir)
    exact ⟨rest, rfl⟩
  · exact (prefix_append ..).trans h

theorem within_root : Within [slash] a ↔ a = [slash] := by
  constructor
  · rintro (h | h | ⟨hne, h⟩)
    · exact h
    · exact h
    · have hlength := h.length_le
      have hpos := length_pos_of_ne_nil hne
      rw [length_append, length_singleton] at hlength
      omega
  · exact .inl

/-- A slash in a path is in front of the last name. -/
theorem append_slash_prefix_iff (a dir : Text) (hname : slash ∉ name) :
    a ++ [slash] <+: dir ++ slash :: name ↔ a = dir ∨ a ++ [slash] <+: dir := by
  constructor
  · rintro ⟨rest, h⟩
    rw [append_assoc, singleton_append] at h
    rcases append_eq_append_iff.mp h with ⟨middle, hdir, hrest⟩ | ⟨middle, ha, hrest⟩
    · rcases middle with _ | ⟨b, middle⟩
      · left
        simpa using hdir.symm
      · right
        obtain ⟨rfl, -⟩ := cons.inj hrest
        exact ⟨middle, by simp [hdir]⟩
    · rcases middle with _ | ⟨b, middle⟩
      · left
        simpa using ha
      · obtain ⟨-, hmem⟩ := cons.inj hrest
        exact absurd (by simp [hmem]) hname
  · rintro (rfl | h)
    · exact ⟨name, by simp⟩
    · exact h.trans (prefix_append ..)

theorem within_entry (hdir : dir ≠ []) (hname : slash ∉ name) :
    Within (entry dir name) a ↔ a = entry dir name ∨ Within dir a := by
  rw [entry]
  split
  · next hroot =>
    -- Nothing is in front of the slash of the root.
    have hslash := append_slash_prefix_iff a [] hname
    simp only [nil_append, prefix_nil, append_eq_nil_iff] at hslash
    rw [hroot, within_root, Within, hslash]
    simp
  · rw [Within, Within, append_slash_prefix_iff a dir hname]
    grind

/-- What the elements of a path are. -/
structure IsElement (name : Text) : Prop where
  nonempty : name ≠ []
  slash : slash ∉ name
  plain : name ≠ "." ∧ name ≠ ".."

theorem isElement_enter {e : Text} (he : slash ∉ e) (helements : ∀ e ∈ elements, IsElement e) :
    ∀ x ∈ enter e elements, IsElement x := by
  rw [enter]
  split
  · exact helements
  · next hskip =>
    split
    · exact fun x hx => helements x (mem_of_mem_tail hx)
    · next hup =>
      simp only [Bool.or_eq_true, List.isEmpty_iff, decide_eq_true_eq, not_or] at hskip
      exact forall_mem_cons.mpr ⟨⟨hskip.1, he, hskip.2, hup⟩, helements⟩

/-- The elements of a path are proper names. -/
theorem isElement_elementsFrom (path : Text) : ∀ e ∈ elementsFrom [] path, IsElement e := by
  have hfold : ∀ pieces elements : List Text, (∀ e ∈ pieces, slash ∉ e) → (∀ e ∈ elements, IsElement e) →
      ∀ e ∈ pieces.foldl (fun elements e => enter e elements) elements, IsElement e := by
    intro pieces
    induction pieces with
    | nil => exact fun _ _ helements => helements
    | cons piece pieces ih =>
      intro elements hpieces helements
      obtain ⟨hpiece, hpieces⟩ := forall_mem_cons.mp hpieces
      exact ih _ hpieces (isElement_enter hpiece helements)
  rw [elementsFrom, ite_self]
  exact hfold _ _ (fun e he => Text.not_mem_of_mem_pieces he) (by simp)

theorem ofElements_nil : ofElements [] = [slash] := by decide

theorem isAbsolute_ofElements (elements : List Text) : isAbsolute (ofElements elements) := by
  rcases elements.eq_nil_or_concat with rfl | ⟨front, e, rfl⟩
  · decide
  · simp [isAbsolute, ofElements]

/-- A name behind a path is entered last. -/
theorem elementsFrom_append (path : Text) (hname : slash ∉ name) :
    elementsFrom [] (path ++ slash :: name) = enter name (elementsFrom [] path) := by
  rw [elementsFrom, elementsFrom, ite_self, ite_self, Text.pieces_append, Text.pieces_of_line hname, foldl_append]
  rfl

/-- A proper name is entered as it is. -/
theorem enter_isElement (hname : IsElement name) (elements : List Text) : enter name elements = name :: elements := by
  have hskip : ¬ (name.isEmpty || decide (name = ".")) = true := by simp [hname.nonempty, hname.plain.1]
  rw [enter, if_neg hskip, if_neg hname.plain.2]

theorem elementsFrom_flatMap (h : ∀ e ∈ elements, IsElement e) :
    elementsFrom [] (elements.reverse.flatMap fun e => slash :: e) = elements := by
  induction elements with
  | nil => decide
  | cons e elements ih =>
    obtain ⟨he, helements⟩ := forall_mem_cons.mp h
    rw [reverse_cons, flatMap_append, flatMap_singleton, elementsFrom_append _ he.slash, ih helements,
      enter_isElement he]

/-- A path made of elements has these elements. -/
theorem elementsFrom_ofElements (h : ∀ e ∈ elements, IsElement e) :
    elementsFrom [] (ofElements elements) = elements := by
  rw [ofElements]
  split
  · next hempty =>
    rw [List.isEmpty_iff.mp hempty]
    decide
  · exact elementsFrom_flatMap h

theorem ofElements_cons {e : Text} (houter : ∀ e ∈ outer, IsElement e) :
    ofElements (e :: outer) = entry (ofElements outer) e := by
  rcases outer with _ | ⟨o, outer⟩
  · rw [entry, if_pos ofElements_nil]
    simp [ofElements]
  · have hcons : ∀ (e : Text) (outer : List Text), ofElements (e :: outer) =
        (outer.reverse.flatMap fun e => slash :: e) ++ slash :: e := by
      intro e outer
      simp [ofElements]
    -- The path of the outer directory is longer than that of the root.
    have hlong : ofElements (o :: outer) ≠ [slash] := by
      intro hroot
      have hlength := congrArg List.length hroot
      have hpos := length_pos_of_ne_nil (houter o mem_cons_self).nonempty
      rw [hcons, length_append, length_cons, length_singleton] at hlength
      omega
    rw [entry, if_neg hlong, hcons e, hcons o]
    simp

/-- Going up one element at a time finds every directory above. -/
theorem within_ofElements_cons {e : Text} (h : ∀ x ∈ e :: outer, IsElement x) :
    Within (ofElements (e :: outer)) a ↔ a = ofElements (e :: outer) ∨ Within (ofElements outer) a := by
  obtain ⟨he, houter⟩ := forall_mem_cons.mp h
  have hne : ofElements outer ≠ [] := by
    intro hnil
    have habsolute := isAbsolute_ofElements outer
    rw [hnil] at habsolute
    cases habsolute
  rw [ofElements_cons houter]
  exact within_entry hne he.slash

/-! ## Going up on texts -/

/-- What is in front of the last slash, cleaned. -/
def parent (path : Text) : Text := clean (Text.trimEnd (fun b => !isSlash b) path)

def join (dir name : Text) : Text := clean (dir ++ slash :: name)

/-- Cleaning a path with one more name enters the name. -/
theorem clean_append (hpath : isAbsolute (dir ++ slash :: name)) (hname : slash ∉ name) :
    clean (dir ++ slash :: name) = ofElements (enter name (elementsFrom [] dir)) := by
  rw [clean, if_pos hpath, elementsFrom_append dir hname]

/-- Joining a path and a name adds the name to its elements. -/
theorem join_ofElements (hname : IsElement name) (h : ∀ e ∈ outer, IsElement e) :
    join (ofElements outer) name = ofElements (name :: outer) := by
  have hpath : isAbsolute (ofElements outer ++ slash :: name) := by
    obtain ⟨rest, hrest⟩ := head?_eq_some_iff.mp (of_decide_eq_true (isAbsolute_ofElements outer))
    rw [hrest]
    rfl
  rw [join, clean_append hpath hname.slash, elementsFrom_ofElements h, enter_isElement hname]

theorem parent_root : parent (ofElements []) = ofElements [] := by decide

/-- Without its last name a path is that of the directory around. -/
theorem parent_cons (hname : IsElement name) (h : ∀ e ∈ outer, IsElement e) :
    parent (ofElements (name :: outer)) = ofElements outer := by
  have hpath : ofElements (name :: outer) = (outer.reverse.flatMap fun e => slash :: e) ++ slash :: name := by
    simp [ofElements]
  have htrim : Text.trimEnd (fun b => !isSlash b) (ofElements (name :: outer)) =
      (outer.reverse.flatMap fun e => slash :: e) ++ slash :: [] := by
    have hplain : ∀ b ∈ name.reverse, !isSlash b := by
      intro b hb
      have hne : b ≠ slash := ne_of_mem_of_not_mem (mem_reverse.mp hb) hname.slash
      simpa [isSlash] using hne
    rw [hpath, Text.trimEnd, reverse_append, reverse_cons, append_assoc, dropWhile_append_of_pos hplain]
    simp [isSlash]
  have habsolute : isAbsolute ((outer.reverse.flatMap fun e => slash :: e) ++ slash :: []) := by
    cases outer.reverse <;> rfl
  rw [parent, htrim, clean_append habsolute not_mem_nil, elementsFrom_flatMap h]
  rfl

theorem parent_cons_ne (hname : IsElement name) (h : ∀ e ∈ outer, IsElement e) :
    parent (ofElements (name :: outer)) ≠ ofElements (name :: outer) := by
  intro hsame
  rw [parent_cons hname h] at hsame
  have helements := congrArg (elementsFrom []) hsame
  rw [elementsFrom_ofElements h, elementsFrom_ofElements (forall_mem_cons.mpr ⟨hname, h⟩)] at helements
  exact cons_ne_self _ _ helements.symm

end Path

/-! ## The search -/

namespace Machine

variable {m : Machine} {path : Text}

/-- Is there something at the path that is no directory? -/
def hasFile (m : Machine) (path : Text) : Bool :=
  match m.disk.find m.directory path with
  | .ok e => e ≠ .directory
  | .error _ => false

theorem hasFile_iff : m.hasFile path ↔ ∃ content, m.disk.read m.directory path = .ok content := by
  rw [hasFile, Disk.read]
  rcases m.disk.find m.directory path with e | ⟨content⟩ | _ <;> simp

end Machine

namespace Config

open Offside.Path

variable {m : Machine} {dir a b path content : Text} {elements outer : List Text}

/-- The nearest directory with a configuration. -/
structure IsNearest (m : Machine) (dir a : Text) : Prop where
  within : Within dir a
  hasFile : m.hasFile (entry a fileName)
  longest : ∀ b, Within dir b → m.hasFile (entry b fileName) → b.length ≤ a.length

/-- There is one nearest directory at most. -/
theorem IsNearest.unique (hdir : isAbsolute dir) (ha : IsNearest m dir a) (hb : IsNearest m dir b) :
    a = b := by
  have hlength : a.length = b.length :=
    Nat.le_antisymm (hb.longest a ha.within ha.hasFile) (ha.longest b hb.within hb.hasFile)
  refine (prefix_of_prefix_length_le (ha.within.isPrefix hdir) (hb.within.isPrefix hdir) ?_).eq_of_length
    hlength
  exact hlength.le

theorem isFile_eq (m : Machine) (path : Text) : (isFile path : StateM Machine Bool) m = (m.hasFile path, m) := by
  have hhost : (Host.isDirectory path : StateM Machine _) m =
      ((m.disk.find m.directory path).map fun e => decide (e = .directory), m) := rfl
  rw [Machine.hasFile]
  rcases hfind : m.disk.find m.directory path with e | e
  · rw [hfind] at hhost
    simp only [isFile, bind, StateT.bind, hhost]
    rfl
  · rw [hfind] at hhost
    simp only [isFile, bind, StateT.bind, hhost]
    exact congrArg (·, m) (decide_not ..).symm

theorem find?_nil (m : Machine) : (find? [] : StateM Machine _) m =
    (if m.hasFile (pathIn []) then some (pathIn []) else none, m) := by
  rw [find?]
  simp only [bind, StateT.bind, isFile_eq]
  split <;> rfl

theorem find?_cons (m : Machine) (e : Text) (outer : List Text) : (find? (e :: outer) : StateM Machine _) m =
    if m.hasFile (pathIn (e :: outer)) then (some (pathIn (e :: outer)), m)
    else (find? outer : StateM Machine _) m := by
  rw [find?]
  simp only [bind, StateT.bind, isFile_eq]
  split <;> rfl

/-- What the search finds in a directory, and in all that it is in. -/
def Finds (m : Machine) (dir : Text) : Option Text → Prop
  | some path => ∃ a, IsNearest m dir a ∧ path = entry a fileName
  | none => ∀ a, Within dir a → m.hasFile (entry a fileName) = false

theorem pathIn_eq (h : ∀ e ∈ elements, IsElement e) :
    pathIn elements = entry (ofElements elements) fileName := ofElements_cons h

theorem isNearest_self (hdir : isAbsolute dir) (h : m.hasFile (entry dir fileName)) :
    IsNearest m dir dir :=
  ⟨.inl rfl, h, fun _ hb _ => (hb.isPrefix hdir).length_le⟩

/-- The search finds the nearest file, and changes nothing. -/
theorem exists_find? (h : ∀ e ∈ elements, IsElement e) :
    ∃ found, (find? elements : StateM Machine _) m = (found, m) ∧ Finds m (ofElements elements) found := by
  induction elements with
  | nil =>
    rw [find?_nil, pathIn_eq h]
    refine ⟨_, rfl, ?_⟩
    split
    · next hfile => exact ⟨_, isNearest_self (isAbsolute_ofElements []) hfile, rfl⟩
    · next hfile =>
      intro a ha
      rw [ofElements_nil, within_root] at ha
      rw [ha, ← ofElements_nil]
      simpa using hfile
  | cons e outer ih =>
    rw [find?_cons, pathIn_eq h]
    by_cases hfile : m.hasFile (entry (ofElements (e :: outer)) fileName)
    · rw [if_pos hfile]
      exact ⟨_, rfl, _, isNearest_self (isAbsolute_ofElements _) hfile, rfl⟩
    · rw [if_neg hfile]
      -- The directory itself has no configuration, so it is left out on both sides.
      have hwithin : ∀ a, m.hasFile (entry a fileName) →
          Within (ofElements (e :: outer)) a → Within (ofElements outer) a := by
        intro a hfilea ha
        rcases (within_ofElements_cons h).mp ha with rfl | ha
        · exact absurd hfilea hfile
        · exact ha
      obtain ⟨_ | path, hfound, hfinds⟩ := ih (forall_mem_cons.mp h).2
      · refine ⟨none, hfound, fun a ha => ?_⟩
        by_contra hfilea
        rw [Bool.not_eq_false] at hfilea
        rw [hfinds a (hwithin a hfilea ha)] at hfilea
        cases hfilea
      · obtain ⟨a, ha, rfl⟩ := hfinds
        exact ⟨_, hfound, a, ⟨(within_ofElements_cons h).mpr (.inr ha.within), ha.hasFile,
          fun b hb hfileb => ha.longest b (hwithin b hfileb hb) hfileb⟩, rfl⟩

/-! ## The search on texts -/

section

variable {host : Type → Type} [Monad host] [Host host]

/-- One round of a search that knows only the text of a directory: it looks there, and then goes on
in the parent, unless the directory is its own parent. -/
def climb (search : Text → host (Option Text)) (dir : Text) : host (Option Text) := do
  if ← isFile (join dir fileName) then return some (join dir fileName)
  else if parent dir = dir then return none
  else search (parent dir)

theorem isElement_fileName : IsElement fileName := ⟨by decide, by decide, by decide⟩

theorem climb_root (search : Text → host (Option Text)) : climb search (ofElements []) = find? [] := by
  rw [climb, join_ofElements isElement_fileName (by simp), if_pos parent_root, find?]
  rfl

/-- One step of the loop is one step of the search. -/
theorem climb_cons {e : Text} (search : Text → host (Option Text)) (h : ∀ x ∈ e :: outer, IsElement x) :
    climb search (ofElements (e :: outer)) = (do
      if ← isFile (pathIn (e :: outer)) then return some (pathIn (e :: outer))
      else search (ofElements outer)) := by
  obtain ⟨he, houter⟩ := forall_mem_cons.mp h
  rw [climb, join_ofElements isElement_fileName h, if_neg (parent_cons_ne he houter),
    parent_cons he houter]
  rfl

/-- On clean absolute paths, whatever goes up round by round is the search by elements. -/
theorem eq_find?_of_climb {search : Text → host (Option Text)}
    (hsearch : ∀ dir, isAbsolute dir → clean dir = dir → search dir = climb search dir)
    (habsolute : isAbsolute dir) (hclean : clean dir = dir) :
    search dir = find? (elementsFrom [] dir) := by
  have hround : ∀ elements, (∀ e ∈ elements, IsElement e) →
      search (ofElements elements) = climb search (ofElements elements) := by
    intro elements h
    refine hsearch _ (isAbsolute_ofElements elements) ?_
    rw [clean, if_pos (isAbsolute_ofElements elements), elementsFrom_ofElements h]
  have hfind : ∀ elements, (∀ e ∈ elements, IsElement e) →
      search (ofElements elements) = find? elements := by
    intro elements h
    induction elements with
    | nil => exact (hround [] h).trans (climb_root search)
    | cons e outer ih => rw [hround _ h, climb_cons search h, ih (forall_mem_cons.mp h).2, find?]
  rw [clean, if_pos habsolute] at hclean
  rw [← hfind _ (isElement_elementsFrom dir), hclean]

/-- The search by elements goes up round by round. -/
theorem find?_climbs (habsolute : isAbsolute dir) (hclean : clean dir = dir) :
    (find? (elementsFrom [] dir) : host _) = climb (fun dir => find? (elementsFrom [] dir)) dir := by
  rw [clean, if_pos habsolute] at hclean
  have hdir := isElement_elementsFrom dir
  rw [← hclean, elementsFrom_ofElements hdir]
  cases helements : elementsFrom [] dir with
  | nil => rw [climb_root]
  | cons e outer =>
    rw [helements] at hdir
    rw [climb_cons _ hdir, elementsFrom_ofElements (forall_mem_cons.mp hdir).2, find?]

end

/-! ## Loading -/

theorem load_ok (h : m.disk.read m.directory path = .ok content) :
    (load path : StateM Machine _) m = ((parse path content).mapError (.rejected path), m) := by
  have hhost : (Host.read path : StateM Machine _) m = (.ok content, m) := by rw [← h]; rfl
  simp only [load, bind, StateT.bind, hhost]
  rcases parse path content with r | c <;> rfl

theorem load_error {e : FileError} (h : m.disk.read m.directory path = .error e) :
    (load path : StateM Machine _) m = (.error (.unreadable path e), m) := by
  have hhost : (Host.read path : StateM Machine _) m = (.error e, m) := by rw [← h]; rfl
  simp only [load, bind, StateT.bind, hhost]
  rfl

theorem resolve_nil (m : Machine) : (resolve [] : StateM Machine _) m =
    match (find? (elementsFrom [] (ofElements m.directory)) : StateM Machine _) m with
    | (some path, m') => (load path : StateM Machine _) m'
    | (none, m') => (.ok {}, m') := by
  have hhost : (Host.workingDirectory : StateM Machine Text) m = (ofElements m.directory, m) := rfl
  simp only [resolve, isEmpty_nil, Bool.not_true, Bool.false_eq_true, if_false, bind, StateT.bind, hhost]
  rcases (find? (elementsFrom [] (ofElements m.directory)) : StateM Machine _) m with ⟨_ | path, m'⟩ <;> rfl

/-- A configuration is resolved without a change to the machine. -/
theorem exists_resolve_eq (explicit : Text) (m : Machine) : ∃ r, (resolve explicit : StateM Machine _) m = (r, m) := by
  have hload : ∀ path, ∃ r, (load path : StateM Machine _) m = (r, m) := by
    intro path
    rcases hread : m.disk.read m.directory path with e | content
    · exact ⟨_, load_error hread⟩
    · exact ⟨_, load_ok hread⟩
  rcases explicit with _ | ⟨b, explicit⟩
  · obtain ⟨found, hfound, -⟩ := exists_find? (m := m) (isElement_elementsFrom (ofElements m.directory))
    rw [resolve_nil, hfound]
    rcases found with _ | path
    · exact ⟨_, rfl⟩
    · exact hload path
  · exact hload _

/-- The search ends, with the file in the nearest directory that has one, or with nothing if none
has. That file is loaded, whether it is valid or not, and without one the defaults hold. -/
theorem resolve_nearest {m : Machine} {dir : Text} (habsolute : Path.isAbsolute dir = true)
    (hclean : Path.clean dir = dir) :
    ∃ found, (find? (Path.elementsFrom [] dir) : StateM Machine _) m = (found, m) ∧
      (∀ path, found = some path ↔ ∃ a, IsNearest m dir a ∧ path = Path.entry a fileName) ∧
      (found = none ↔ ∀ a, Path.Within dir a → m.hasFile (Path.entry a fileName) = false) ∧
      (Path.ofElements m.directory = dir →
        (∀ path, found = some path → ∃ content, m.disk.read m.directory path = .ok content ∧
          (resolve [] : StateM Machine _) m = ((parse path content).mapError (.rejected path), m)) ∧
        (found = none → (resolve [] : StateM Machine _) m = (.ok {}, m))) := by
  have hdir : Path.ofElements (Path.elementsFrom [] dir) = dir := by
    rw [Path.clean, if_pos habsolute] at hclean
    exact hclean
  obtain ⟨found, hfound, hfinds⟩ := exists_find? (m := m) (Path.isElement_elementsFrom dir)
  rw [hdir] at hfinds
  refine ⟨found, hfound, fun path => ⟨?_, ?_⟩, ⟨?_, ?_⟩, fun hworking => ⟨fun path hpath => ?_, fun hnone => ?_⟩⟩
  · rintro rfl
    exact hfinds
  · rintro ⟨a, ha, rfl⟩
    rcases found with _ | path
    · exact absurd ha.hasFile (by simp [hfinds a ha.within])
    · obtain ⟨b, hb, rfl⟩ := hfinds
      rw [ha.unique habsolute hb]
  · rintro rfl
    exact hfinds
  · intro hnone
    rcases found with _ | path
    · rfl
    · obtain ⟨a, ha, rfl⟩ := hfinds
      exact absurd ha.hasFile (by simp [hnone a ha.within])
  · subst hpath
    obtain ⟨a, ha, rfl⟩ := hfinds
    obtain ⟨content, hread⟩ := Machine.hasFile_iff.mp ha.hasFile
    refine ⟨content, hread, ?_⟩
    rw [resolve_nil, hworking, hfound]
    exact load_ok hread
  · rw [resolve_nil, hworking, hfound, hnone]

/-- A directory that is named like a configuration is passed by. -/
theorem resolve_nearest_above : ∃ m : Machine, Path.ofElements m.directory = ("/work/a/b" : Text) ∧
    (∃ a, IsNearest m "/work/a/b" a ∧ Path.entry a fileName = ("/work/.delight.yaml" : Text)) ∧
    (resolve [] : StateM Machine _) m = (.ok { extension := ".di", path := "/work/.delight.yaml" }, m) := by
  obtain ⟨m, hm⟩ : ∃ m : Machine, m = {
      directory := ["b", "a", "work"]
      disk := ((Disk.makeDirectory {} ["b", "a", "work"]).makeDirectory [".delight.yaml", "a", "work"]).putFile
        [".delight.yaml", "work"] "extension: .di\n" } := ⟨_, rfl⟩
  have hworking : Path.ofElements m.directory = ("/work/a/b" : Text) := by
    rw [hm]
    decide
  have habsolute : Path.isAbsolute ("/work/a/b" : Text) = true := by decide
  have hclean : Path.clean ("/work/a/b" : Text) = ("/work/a/b" : Text) := by decide
  obtain ⟨found, hfound, hsome, -, hresolve⟩ := resolve_nearest (m := m) habsolute hclean
  have hpath : found = some ("/work/.delight.yaml" : Text) := by
    have hfirst : found = ((find? (Path.elementsFrom [] "/work/a/b") : StateM Machine _) m).1 := by rw [hfound]
    rw [hfirst, hm]
    decide +kernel
  obtain ⟨a, ha, hentry⟩ := (hsome _).mp hpath
  obtain ⟨content, hread, hload⟩ := (hresolve hworking).1 _ hpath
  have hcontent : content = ("extension: .di\n" : Text) := by
    have hvalue : m.disk.read m.directory ("/work/.delight.yaml" : Text) = .ok ("extension: .di\n" : Text) := by
      rw [hm]
      decide +kernel
    rw [hvalue] at hread
    exact (Except.ok.inj hread).symm
  refine ⟨m, hworking, ⟨a, ha, hentry.symm⟩, ?_⟩
  rw [hload, hcontent]
  have hparse : parse ("/work/.delight.yaml" : Text) ("extension: .di\n" : Text) =
      .ok { extension := ".di", path := "/work/.delight.yaml" } := by decide +kernel
  rw [hparse]
  rfl

end Config

end Offside
