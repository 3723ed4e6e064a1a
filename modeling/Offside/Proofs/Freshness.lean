/-
A generated file is up to date right after it was written, and until the fingerprint of its source
is another one.

The stamp is two lines of comment. A reader has to find the fingerprint on the second one, so the
name on the first must not end it early and must not be too long.
-/
import Offside.Command.Run
import Offside.Proofs.Disk

set_option autoImplicit false

namespace Offside

open List Text Offside.Path

/-! ## Digests -/

variable {t : Text}

namespace Text

def isLowerHex (b : UInt8) : Bool := isDigit b || ('a'.toUInt8 ≤ b && b ≤ 'f'.toUInt8)

def isDigest (t : Text) : Bool := t.length == 64 && t.all isLowerHex

theorem isDigest_iff : t.isDigest ↔ t.length = 64 ∧ ∀ b ∈ t, isLowerHex b := by
  rw [isDigest, Bool.and_eq_true, beq_iff_eq, all_eq_true]

/-- Fingerprints are digests. -/
theorem isDigest_fingerprint (t : Text) : t.fingerprint.isDigest := by
  have hdigits : ∀ b : UInt8, (hexDigits 2 b.toNat).length = 2 ∧
      (hexDigits 2 b.toNat).all isLowerHex := by decide +kernel
  have hbytes : ∀ w : UInt64, (Blake2b.bytes w).length = 8 := by
    intro w
    rw [Blake2b.bytes, length_map, length_range]
  have hdigest : (Blake2b.digest t).length = 32 := by
    simp [Blake2b.digest, length_flatMap, hbytes]
  refine isDigest_iff.mpr ⟨?_, fun b hb => ?_⟩
  · simp [fingerprint, length_flatMap, hdigits, hdigest]
  · obtain ⟨c, -, hb⟩ := mem_flatMap.mp hb
    exact all_eq_true.mp (hdigits c).2 b hb

theorem trim_hex (h : ∀ b ∈ t, isLowerHex b) : t.trim = t := by
  have hhex : ∀ b : UInt8, isLowerHex b → b < 0x80 ∧
      String.utf8EncodeChar (Char.ofNat b.toNat) = [b] ∧
      (Symbol.scalar (Char.ofNat b.toNat)).isBlank = false := by decide +kernel
  have hsymbols : t.symbols = t.map fun b => Symbol.scalar (Char.ofNat b.toNat) := by
    rw [symbols]
    induction t with
    | nil => rfl
    | cons b t ih =>
      obtain ⟨hb, ht⟩ := forall_mem_cons.mp h
      rw [symbolsAfter, Symbol.decode?, if_pos (hhex b hb).1]
      dsimp only
      rw [ih ht, map_cons]
  have hblank : ∀ ss : List Symbol, (∀ s ∈ ss, s.isBlank = false) → ss.dropWhile Symbol.isBlank = ss := by
    intro ss hss
    cases ss with
    | nil => rfl
    | cons s ss => exact dropWhile_cons_of_neg (by rw [hss s mem_cons_self]; decide)
  have hnone : ∀ s ∈ t.symbols, s.isBlank = false := by
    intro s hs
    rw [hsymbols] at hs
    obtain ⟨b, hb, rfl⟩ := mem_map.mp hs
    exact (hhex b (h b hb)).2.2
  have hbytes : ∀ b ∈ t, (Symbol.scalar (Char.ofNat b.toNat)).bytes = [b] := fun b hb => (hhex b (h b hb)).2.1
  rw [trim, hblank _ hnone, hblank _ fun s hs => hnone s (mem_reverse.mp hs), reverse_reverse,
    hsymbols, flatMap_map, flatMap_congr hbytes, flatMap_singleton']

theorem withoutEnd_of_getLast? {b : UInt8} (h : t.getLast? ≠ some b) : withoutEnd [b] t = t := by
  rw [withoutEnd, if_neg]
  intro hsuffix
  obtain ⟨rest, rfl⟩ := isSuffixOf_iff_suffix.mp hsuffix
  exact h (getLast?_concat ..)

theorem after?_append (head rest : Text) : after? head (head ++ rest) = some rest := by
  rw [after?, if_pos (List.isPrefixOf_iff_prefix.mpr (prefix_append ..)), drop_left]

end Text

/-! ## The stamp is read back -/

variable {file : Text}

namespace Stamp

variable {line : Text} {rest : List Text}

theorem find?_comment (hlength : line.length ≤ maxLine) (hend : line.getLast? ≠ some '\r'.toUInt8)
    (hcomment : (after? "//" line).isSome) (hmark : after? mark line = none) :
    find? (line :: rest) = find? rest := by
  have hreturn : ofString "\r" = ['\r'.toUInt8] := by decide
  rw [find?, if_neg (by omega), hreturn]
  dsimp only
  rw [withoutEnd_of_getLast? hend, if_neg (by simp [Option.isSome_iff_ne_none.mp hcomment]), hmark]

/-- A line with the mark and a digest ends the search. -/
theorem find?_digest {digest : Text} (h : digest.isDigest) :
    find? ((mark ++ digest) :: rest) = some digest := by
  obtain ⟨hlength, hhex⟩ := Text.isDigest_iff.mp h
  have hreturn : ofString "\r" = ['\r'.toUInt8] := by decide
  have hmark : mark.length = 23 := by decide
  have hlast : (mark ++ digest).getLast? ≠ some '\r'.toUInt8 := by
    intro hlast
    have hne : digest ≠ [] := by
      rintro rfl
      cases hlength
    rw [getLast?_append_of_ne_nil _ hne] at hlast
    exact absurd (hhex _ (mem_of_getLast? hlast)) (by decide)
  have hcomment : (after? "//" (mark ++ digest)).isSome := rfl
  rw [find?, if_neg (by rw [length_append, hmark, hlength, maxLine]; omega), hreturn]
  dsimp only
  rw [withoutEnd_of_getLast? hlast, if_neg (by simp [Option.isSome_iff_ne_none.mp hcomment]),
    after?_append]
  dsimp only
  rw [trim_hex hhex]

def origin (file : Text) : Text :=
  "// Code generated by delight from " ++ base file ++ "; DO NOT EDIT."

theorem header_append (file source output : Text) (fingerprint : Text → Text) :
    header file source fingerprint ++ output =
      origin file ++ '\n'.toUInt8 :: ((mark ++ fingerprint source) ++ '\n'.toUInt8 ::
        ('\n'.toUInt8 :: output)) := by
  have hend : ofString "; DO NOT EDIT.\n" = ofString "; DO NOT EDIT." ++ ['\n'.toUInt8] := by decide
  have hends : ofString "\n\n" = ['\n'.toUInt8, '\n'.toUInt8] := by decide
  rw [header, origin, hend, hends]
  simp only [append_assoc, cons_append, nil_append]

theorem exists_lines {first second : Text} (hfirst : '\n'.toUInt8 ∉ first)
    (hsecond : '\n'.toUInt8 ∉ second) (output : Text) :
    ∃ rest, lines (first ++ '\n'.toUInt8 :: (second ++ '\n'.toUInt8 :: ('\n'.toUInt8 :: output))) =
      first :: second :: rest := by
  have hpieces : pieces '\n'.toUInt8
      (first ++ '\n'.toUInt8 :: (second ++ '\n'.toUInt8 :: ('\n'.toUInt8 :: output))) =
      first :: second :: [] :: pieces '\n'.toUInt8 output := by
    rw [pieces_append, pieces_append, pieces_of_line hfirst, pieces_of_line hsecond,
      Text.pieces.eq_2 _ _ output, if_pos rfl]
    rfl
  rw [lines, hpieces]
  split
  · exact ⟨_, rfl⟩
  · exact ⟨_, rfl⟩

/-- The fingerprint in a header is found, whatever was generated. -/
theorem recorded?_header {fingerprint : Text → Text} (hname : '\n'.toUInt8 ∉ base file)
    (hlength : (base file).length < 60000) (hdigest : ∀ t, (fingerprint t).isDigest)
    (source output : Text) : recorded? (header file source fingerprint ++ output) = some (fingerprint source) := by
  obtain ⟨hstart, hstop, hmark⟩ : '\n'.toUInt8 ∉ ofString "// Code generated by delight from " ∧
      '\n'.toUInt8 ∉ ofString "; DO NOT EDIT." ∧ '\n'.toUInt8 ∉ mark := by decide +kernel
  have hfirst : '\n'.toUInt8 ∉ origin file := by
    rw [origin, mem_append, mem_append, not_or, not_or]
    exact ⟨⟨hstart, hname⟩, hstop⟩
  have hsecond : '\n'.toUInt8 ∉ mark ++ fingerprint source := by
    rw [mem_append, not_or]
    refine ⟨hmark, fun h => ?_⟩
    exact absurd ((Text.isDigest_iff.mp (hdigest source)).2 _ h) (by decide)
  obtain ⟨rest, hlines⟩ := exists_lines hfirst hsecond output
  rw [recorded?, header_append, hlines, find?_comment, find?_digest (hdigest source)]
  · have hlengths : (ofString "// Code generated by delight from ").length = 34 ∧
        (ofString "; DO NOT EDIT.").length = 14 := by decide
    rw [origin, length_append, length_append, hlengths.1, hlengths.2, maxLine]
    omega
  · rw [origin, getLast?_append_of_ne_nil _ (by decide)]
    decide
  · rfl
  · -- The first line goes on differently behind the slashes.
    rw [after?, if_neg]
    intro hprefix
    have hstarts : ofString "// Code generated by delight from " <+: origin file := by
      rw [origin, append_assoc]
      exact prefix_append ..
    have hshort : mark <+: ofString "// Code generated by delight from " :=
      prefix_of_prefix_length_le (List.isPrefixOf_iff_prefix.mp hprefix) hstarts (by decide)
    exact absurd (List.isPrefixOf_iff_prefix.mpr hshort) (by decide)

end Stamp

/-! ## Where the generated file is -/

namespace Path

theorem extension_suffix_element (path : Text) : extension path <:+ element path := by
  rw [extension, element]
  generalize path.reverse.takeWhile (fun b => !isSlash b) = reversed
  split
  · next hdot =>
    have hsplit := takeWhile_append_dropWhile (p := fun b => b != '.'.toUInt8) (l := reversed)
    have hhead := head?_dropWhile_not (fun b => b != '.'.toUInt8) reversed
    rcases hrest : reversed.dropWhile (fun b => b != '.'.toUInt8) with _ | ⟨b, rest⟩
    · rw [dropWhile_eq_nil_iff] at hrest
      exact absurd (hrest _ (contains_iff_mem.mp hdot)) (by decide)
    · -- Read backwards, the dot is the first thing behind the extension.
      rw [hrest, head?_cons] at hhead
      have hb : b = '.'.toUInt8 := by simpa using hhead
      refine ⟨rest.reverse, ?_⟩
      conv_rhs => rw [← hsplit, hrest, hb]
      simp
  · exact nil_suffix

theorem withExtension_eq (path ext : Text) :
    ∃ stem, slash ∉ stem ∧ withExtension path ext = directories path ++ (stem ++ ext) := by
  have hpath := directories_append_element path
  rw [withExtension, withoutEnd]
  split
  · refine ⟨(element path).take ((element path).length - (extension path).length), ?_, ?_⟩
    · exact fun h => slash_not_mem_element path (mem_of_mem_take h)
    · have hle := (extension_suffix_element path).length_le
      have hlength := congrArg List.length hpath
      rw [length_append] at hlength
      have htake : path.take (path.length - (extension path).length) =
          directories path ++ (element path).take ((element path).length - (extension path).length) := by
        have hcount : path.length - (extension path).length - (directories path).length =
            (element path).length - (extension path).length := by omega
        conv_lhs => arg 2; rw [← hpath]
        rw [take_append, take_of_length_le (by omega), hcount]
      rw [htake, append_assoc]
  · exact ⟨element path, slash_not_mem_element path, by rw [← append_assoc, hpath]⟩

end Path

/-! ## Commands on a machine -/

namespace Machine

variable {α β : Type} {m : Machine}

def perform (c : ExceptT Fault (StateM Machine) α) (m : Machine) : Except Fault α × Machine := c.run.run m

variable {m' : Machine} {c : ExceptT Fault (StateM Machine) α}

/-- A command that succeeds hands its machine to the next. -/
theorem perform_bind_ok {a : α} (h : m.perform c = (.ok a, m')) (f : α → ExceptT Fault (StateM Machine) β) :
    m.perform (c >>= f) = m'.perform (f a) := by
  have hc : c.run.run m = (.ok a, m') := h
  simp only [perform, ExceptT.run_bind, StateT.run_bind, hc]
  rfl

/-- A command that fails is the last. -/
theorem perform_bind_error {e : Fault} (h : m.perform c = (.error e, m'))
    (f : α → ExceptT Fault (StateM Machine) β) : m.perform (c >>= f) = (.error e, m') := by
  have hc : c.run.run m = (.error e, m') := h
  simp only [perform, ExceptT.run_bind, StateT.run_bind, hc]
  rfl

theorem perform_lift (x : StateM Machine α) (m : Machine) : m.perform (liftM x) = (.ok (x m).1, (x m).2) := rfl

@[simp] theorem perform_pure (a : α) (m : Machine) : m.perform (pure a) = (.ok a, m) := rfl

@[simp] theorem perform_throw (e : Fault) (m : Machine) :
    m.perform (throw e : ExceptT Fault (StateM Machine) α) = (.error e, m) := rfl

end Machine

namespace Command

open Machine (perform perform_bind_ok perform_bind_error perform_lift)

variable {s : Setup} {m m' : Machine} {file source content : Text}

theorem perform_readSource_ok (h : m.disk.read m.directory file = .ok source) :
    m.perform (readSource file) = (.ok source, m) := by
  have hread : (Host.read file : StateM Machine _) m = (.ok source, m) := by rw [← h]; rfl
  rw [readSource, perform_bind_ok (perform_lift (Host.read file) m), hread]
  rfl

theorem perform_readSource_error {e : FileError} (h : m.disk.read m.directory file = .error e) :
    m.perform (readSource file) = (.error (.unreadable file (some (.ofFileError e))), m) := by
  have hread : (Host.read file : StateM Machine _) m = (.error e, m) := by rw [← h]; rfl
  rw [readSource, perform_bind_ok (perform_lift (Host.read file) m), hread]
  rfl

/-- A file passes the check if it and its generated file can be read and the fingerprint that is
recorded is that of the source. -/
theorem checkFile_ok_iff : (m.perform (checkFile s file)).1 = .ok () ↔
    ∃ source generated, m.disk.read m.directory file = .ok source ∧
      m.disk.read m.directory (outputPath s.config file) = .ok generated ∧
      Stamp.recorded? generated = some (s.fingerprint source) := by
  rcases hsource : m.disk.read m.directory file with e | source
  · rw [checkFile, perform_bind_error (perform_readSource_error hsource)]
    simp
  rw [checkFile, perform_bind_ok (perform_readSource_ok hsource)]
  rcases hgenerated : m.disk.read m.directory (outputPath s.config file) with e | generated
  · have hread : (Host.read (outputPath s.config file) : StateM Machine _) m = (.error e, m) := by
      rw [← hgenerated]
      rfl
    dsimp only
    rw [perform_bind_ok (perform_lift _ m), hread]
    dsimp only
    split <;> simp
  · have hread : (Host.read (outputPath s.config file) : StateM Machine _) m = (.ok generated, m) := by
      rw [← hgenerated]
      rfl
    dsimp only
    rw [perform_bind_ok (perform_lift _ m), hread]
    dsimp only
    rcases hrecorded : Stamp.recorded? generated with _ | recorded
    · simp [hrecorded]
    · by_cases hsame : recorded = s.fingerprint source
      · simp [hrecorded, hsame]
      · simp [hrecorded, hsame]

/-- A file is unreadable, or its source is rejected, or it is translated. -/
theorem translateFile_cases (s : Setup) (m : Machine) (file : Text) : ∃ reported,
    (∃ e, m.disk.read m.directory file = .error e ∧ m.perform (translateFile s file) =
      (.error (.unreadable file (some (.ofFileError e))), { m with reported })) ∨
    (∃ source e, m.disk.read m.directory file = .ok source ∧
      (SourceHistory.run s.config.indentation source).error? = some e ∧
      m.perform (translateFile s file) = (.error (sourceFault file e), { m with reported })) ∨
    ∃ source history, m.disk.read m.directory file = .ok source ∧
      (SourceHistory.run s.config.indentation source).error? = none ∧
      (SourceHistory.run s.config.indentation source).history = .ok history ∧
      m.perform (translateFile s file) = (.ok (generated s file source history), { m with reported }) := by
  rcases hsource : m.disk.read m.directory file with e | source
  · refine ⟨m.reported, .inl ⟨e, rfl, ?_⟩⟩
    rw [translateFile, perform_bind_error (perform_readSource_error hsource)]
  rw [translateFile, perform_bind_ok (perform_readSource_ok hsource)]
  dsimp only
  rw [perform_bind_ok (perform_lift _ m)]
  rcases herror : (SourceHistory.run s.config.indentation source).error? with _ | e
  · rcases hhistory : (SourceHistory.run s.config.indentation source).history with e | history
    · -- A scan that fails is an error.
      rw [SourceHistory.error?, hhistory] at herror
      cases herror
    · exact ⟨_, .inr (.inr ⟨source, history, rfl, herror, hhistory, rfl⟩)⟩
  · dsimp only
    rw [perform_bind_ok (perform_lift _ _)]
    exact ⟨_, .inr (.inl ⟨source, e, rfl, herror, rfl⟩)⟩

theorem translateFile_ok (h : m.perform (translateFile s file) = (.ok content, m')) :
    ∃ source history, m.disk.read m.directory file = .ok source ∧
      content = generated s file source history ∧ m'.disk = m.disk ∧ m'.directory = m.directory := by
  obtain ⟨reported, ⟨e, -, hrun⟩ | ⟨source, e, -, -, hrun⟩ | ⟨source, history, hsource, -, -, hrun⟩⟩ :=
    translateFile_cases s m file
  · rw [hrun] at h
    cases h
  · rw [hrun] at h
    cases h
  · rw [hrun] at h
    cases h
    exact ⟨source, history, hsource, rfl, rfl, rfl⟩

/-- An output is written, or the disk stays as it is. -/
theorem writeOutput_cases (m : Machine) (path content : Text) :
    (∃ disk, m.disk.write m.directory path content = .ok disk ∧
      m.perform (writeOutput path content) = (.ok (), { m with disk })) ∨
    ∃ e, m.disk.write m.directory path content = .error e ∧
      m.perform (writeOutput path content) = (.error (.unwritable path (some (.ofFileError e))), m) := by
  rw [writeOutput, perform_bind_ok (perform_lift _ m)]
  rcases hwrite : m.disk.write m.directory path content with e | disk
  · have hhost : (Host.write path content : StateM Machine _) m = (.error e, m) := by
      simp only [Host.write, Machine.write, hwrite]
    rw [hhost]
    exact .inr ⟨e, rfl, rfl⟩
  · have hhost : (Host.write path content : StateM Machine _) m = (.ok (), { m with disk }) := by
      simp only [Host.write, Machine.write, hwrite]
    rw [hhost]
    exact .inl ⟨disk, rfl, rfl⟩

theorem writeOutput_ok {path : Text} (h : m.perform (writeOutput path content) = (.ok (), m')) :
    m.disk.write m.directory path content = .ok m'.disk ∧ m'.directory = m.directory := by
  obtain ⟨disk, hwrite, hrun⟩ | ⟨e, -, hrun⟩ := writeOutput_cases m path content
  · rw [hrun] at h
    cases h
    exact ⟨hwrite, rfl⟩
  · rw [hrun] at h
    cases h

/-- If a file is translated then its output was written. -/
theorem translate_ok (h : m.perform (translate s [file] [] false) = (.ok (), m')) :
    ∃ source history, m.disk.read m.directory file = .ok source ∧ m'.directory = m.directory ∧
      m.disk.write m.directory (outputPath s.config file) (generated s file source history) =
        .ok m'.disk := by
  have hall : m.perform (translateAll s [] false [file]) = (.ok (), m') := h
  rcases htranslate : m.perform (translateFile s file) with ⟨e | content, m₁⟩
  · rw [translateAll, perform_bind_error htranslate] at hall
    cases hall
  rw [translateAll, perform_bind_ok htranslate] at hall
  rcases hdeliver : m₁.perform (deliver s [] false file content) with ⟨e | ⟨⟩, m₂⟩
  · rw [perform_bind_error hdeliver] at hall
    cases hall
  rw [perform_bind_ok hdeliver] at hall
  cases hall
  obtain ⟨source, history, hsource, hcontent, hdisk, hdirectory⟩ := translateFile_ok htranslate
  have hwritten : m₁.perform (writeOutput (outputPath s.config file) content) = (.ok (), m') := hdeliver
  obtain ⟨hwrite, hdirectory'⟩ := writeOutput_ok hwritten
  rw [hdisk, hdirectory, hcontent] at hwrite
  exact ⟨source, history, hsource, hdirectory'.trans hdirectory, hwrite⟩

end Command

/-! ## Translating and checking -/

/-- The output is another file than the source. -/
theorem Disk.locate_outputPath_ne {d : Disk} {directory place other : List Text} {config : Config}
    (hslash : Path.slash ∉ config.extension) (hne : Command.outputPath config file ≠ file)
    (hlocate : d.locate directory file = .ok place)
    (hother : d.locate directory (Command.outputPath config file) = .ok other)
    (hplace : d.get? place ≠ some .directory) : place ≠ other := by
  obtain ⟨stem, hstem, houtput⟩ := withExtension_eq file config.extension
  rw [Command.outputPath, houtput] at hne hother
  rw [← directories_append_element file] at hlocate
  refine locate_ne (directories_cases file) (Path.slash_not_mem_element file) ?_ ?_ hlocate hother hplace
  · rw [mem_append, not_or]
    exact ⟨hstem, hslash⟩
  · intro hsame
    rw [← hsame, directories_append_element] at hne
    exact hne rfl

/-- The stamp says what the source was: its fingerprint is read back from the generated text. So a
file that was translated passes the check, and once there is another source it passes exactly if
that has the same fingerprint. An extension has no slash (`Setting.isExtension`); with one, the
generated file could be the source by another path. -/
theorem check_after_translate {s : Setup} {file : Text} (hdigest : ∀ t, (s.fingerprint t).isDigest = true)
    (hname : '\n'.toUInt8 ∉ Path.base file) (hlength : (Path.base file).length < 60000) : (∀ source output : Text,
      Stamp.recorded? (Stamp.header file source s.fingerprint ++ output) = some (s.fingerprint source)) ∧
    (s.config.header = true → Path.slash ∉ s.config.extension → Command.outputPath s.config file ≠ file →
      ∀ m m' : Machine, m.perform (Command.translate s [file] [] false) = (.ok (), m') →
        ∃ source, m.disk.read m.directory file = .ok source ∧
          (m'.perform (Command.checkFile s file)).1 = .ok () ∧
          ∀ source', ∃ disk, m'.disk.write m'.directory file source' = .ok disk ∧
            ((Machine.perform (Command.checkFile s file) { m' with disk }).1 = .ok () ↔
              s.fingerprint source' = s.fingerprint source)) := by
  have hrecorded := Stamp.recorded?_header hname hlength hdigest
  refine ⟨hrecorded, fun hheader hslash hne m m' htranslate => ?_⟩
  obtain ⟨source, history, hsource, hdirectory, hwrite⟩ := Command.translate_ok htranslate
  obtain ⟨place, hlocate, hplace⟩ := Disk.read_eq_ok_iff.mp hsource
  obtain ⟨other, hother, hfree, hdisk⟩ := Disk.write_eq_ok_iff.mp hwrite
  have hfile : m.disk.get? place ≠ some .directory := by rw [hplace]; simp
  have hapart : place ≠ other := Disk.locate_outputPath_ne hslash hne hlocate hother hfile
  have hstamp : Stamp.recorded? (Command.generated s file source history) = some (s.fingerprint source) := by
    rw [Command.generated, if_pos hheader]
    exact hrecorded source _
  -- The disk after the translation has both files.
  have hlocate' : m'.disk.locate m'.directory file = .ok place := by
    rw [hdisk, hdirectory]
    exact Disk.locate_put hlocate hfree
  have hother' : m'.disk.locate m'.directory (Command.outputPath s.config file) = .ok other := by
    rw [hdisk, hdirectory]
    exact Disk.locate_put hother hfree
  have hread' : m'.disk.get? place = some (.file source) := by
    rw [hdisk, Disk.get?_put_of_ne hapart, hplace]
  have hgenerated' : m'.disk.read m'.directory (Command.outputPath s.config file) =
      .ok (Command.generated s file source history) := by
    rw [hdisk, hdirectory]
    exact Disk.read_put_self hother hfree
  refine ⟨source, hsource, ?_, fun source' => ?_⟩
  · exact Command.checkFile_ok_iff.mpr
      ⟨source, _, Disk.read_eq_ok_iff.mpr ⟨place, hlocate', hread'⟩, hgenerated', hstamp⟩
  · have hfile' : m'.disk.get? place ≠ some .directory := by rw [hread']; simp
    refine ⟨m'.disk.put place (.file source'), Disk.write_eq_ok_iff.mpr ⟨place, hlocate', hfile', rfl⟩, ?_⟩
    have hsource'' : (m'.disk.put place (.file source')).read m'.directory file = .ok source' :=
      Disk.read_put_self hlocate' hfile'
    have hgenerated'' : (m'.disk.put place (.file source')).read m'.directory
        (Command.outputPath s.config file) = .ok (Command.generated s file source history) := by
      refine Disk.read_put_of_ne hgenerated' hfile' ?_
      rw [hother']
      simpa using Ne.symm hapart
    rw [Command.checkFile_ok_iff]
    constructor
    · rintro ⟨a, b, ha, hb, hsame⟩
      rw [hsource''] at ha
      rw [hgenerated''] at hb
      cases ha
      cases hb
      rw [hstamp] at hsame
      exact (Option.some.inj hsame).symm
    · intro hsame
      exact ⟨source', _, hsource'', hgenerated'', by rw [hstamp, hsame]⟩

/-- A file in a directory below the working one, with dots in the names of both. -/
theorem check_after_translate_dotted :
    ∃ m m' : Machine, m.disk.read m.directory "lib.v1/a.b.delight" = .ok ("x = 1\n" : Text) ∧
      m.perform (Command.translate {} ["lib.v1/a.b.delight"] [] false) = (.ok (), m') ∧
      (m'.perform (Command.checkFile {} "lib.v1/a.b.delight")).1 = .ok () := by
  obtain ⟨m, hm⟩ : ∃ m : Machine, m = { disk := Disk.putFile {} ["a.b.delight", "lib.v1"] "x = 1\n" } := ⟨_, rfl⟩
  have hread : m.disk.read m.directory "lib.v1/a.b.delight" = .ok ("x = 1\n" : Text) := by
    rw [hm]
    decide +kernel
  have hok : (m.perform (Command.translate {} ["lib.v1/a.b.delight"] [] false)).1.toBool = true := by
    rw [hm]
    decide +kernel
  rcases hrun : m.perform (Command.translate {} ["lib.v1/a.b.delight"] [] false) with ⟨e | ⟨⟩, m'⟩
  · rw [hrun] at hok
    cases hok
  have hname : '\n'.toUInt8 ∉ Path.base "lib.v1/a.b.delight" := by decide
  have hlength : (Path.base "lib.v1/a.b.delight").length < 60000 := by decide
  obtain ⟨source, -, hcheck, -⟩ := (check_after_translate Text.isDigest_fingerprint hname hlength).2 rfl
    (by decide) (by decide) m m' hrun
  exact ⟨m, m', hread, hrun, hcheck⟩

end Offside
