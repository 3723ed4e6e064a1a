/-
Files are translated up to the first that fails.

Each file is read from the disk as the files before it have left it, so what a run does is said step
by step: a file that is translated takes one disk to the next, and the first that is not ends the
run.
-/
import Offside.Proofs.Failure
import Offside.Proofs.Freshness
import Offside.Proofs.NearestConfig

set_option autoImplicit false

namespace Offside

open SourceHistory

theorem SourceHistory.accepts_of_error?_eq_none {unit source : Text} {history : History}
    (hnone : (run unit source).error? = none) (hhistory : (run unit source).history = .ok history) :
    Accepts unit source history := by
  obtain ⟨scanned, -, rfl⟩ := history_eq hhistory
  rcases History.ends_run scanned.unit scanned.tokens with ⟨e, hstop⟩ | ⟨hstop, -⟩
  · simp [error?, hhistory, hstop] at hnone
  · exact ⟨hhistory, hstop⟩

open Machine (perform_bind_ok perform_bind_error perform_lift)

theorem Setup.perform_prepare {version : Text} {o : Options} {s : Setup} {m : Machine}
    (h : (m.perform (prepare version o)).1 = .ok s) : m.perform (prepare version o) = (.ok s, m) := by
  obtain ⟨r, hr⟩ := Config.exists_resolve_eq o.config m
  rw [prepare, perform_bind_ok (perform_lift _ m), hr] at h ⊢
  rcases r with e | config
  · cases h
  · dsimp only at h ⊢
    rcases hversion : config.versionFault? version with _ | f
    · rw [hversion] at h
      rw [← h]
      rfl
    · rw [hversion] at h
      cases h

namespace Command

/-! ## One file -/

variable {s : Setup} {directory : List Text} {file : Text} {d : Disk}

/-- A file is translated: it can be read, its source is accepted, and what is generated can be
written. -/
def Translates (s : Setup) (directory : List Text) (file : Text) (d d' : Disk) : Prop :=
  ∃ source history, d.read directory file = .ok source ∧
    Accepts s.config.indentation source history ∧
    d.write directory (outputPath s.config file) (generated s file source history) = .ok d'

/-- A file can be read, but its source cannot be scanned or translated. -/
def Rejects (s : Setup) (directory : List Text) (file : Text) (d : Disk) : Prop :=
  ∃ source, d.read directory file = .ok source ∧
    ∀ history, ¬ Accepts s.config.indentation source history

/-- A file is not translated, which calls for an exit code. -/
structure Fails (s : Setup) (directory : List Text) (file : Text) (d : Disk) (code : Nat) : Prop where
  untranslated : ∀ d', ¬ Translates s directory file d d'
  rejected : Rejects s directory file d → code = 3
  other : ¬ Rejects s directory file d → code = 1

theorem exitCode_sourceFault (file : Text) (e : SourceError) : (sourceFault file e).exitCode = 3 := by
  cases e <;> rfl

/-- A file that cannot be read fails with code 1. -/
theorem fails_of_unreadable {e : FileError} (hread : d.read directory file = .error e) :
    Fails s directory file d 1 where
  untranslated := by
    rintro d' ⟨source, history, hsource, -⟩
    cases hread.symm.trans hsource
  rejected := by
    rintro ⟨source, hsource, -⟩
    cases hread.symm.trans hsource
  other _ := rfl

/-- A source that is rejected fails with code 3. -/
theorem fails_of_rejects (hrejects : Rejects s directory file d) : Fails s directory file d 3 where
  untranslated := by
    obtain ⟨source, hread, hno⟩ := hrejects
    rintro d' ⟨source', history, hread', haccepts, -⟩
    cases hread.symm.trans hread'
    exact hno history haccepts
  rejected _ := rfl
  other := (absurd hrejects ·)

/-- An output that cannot be written fails with code 1. -/
theorem fails_of_unwritable {source : Text} {history : History} {e : FileError}
    (hread : d.read directory file = .ok source)
    (haccepts : Accepts s.config.indentation source history)
    (hwrite : d.write directory (outputPath s.config file) (generated s file source history) = .error e) :
    Fails s directory file d 1 where
  untranslated := by
    rintro d' ⟨source', history', hread', haccepts', hwrite'⟩
    cases hread.symm.trans hread'
    cases haccepts.1.symm.trans haccepts'.1
    cases hwrite.symm.trans hwrite'
  rejected := by
    rintro ⟨source', hread', hno⟩
    cases hread.symm.trans hread'
    exact absurd haccepts (hno history)
  other _ := rfl

/-- One file, and what becomes of it. -/
theorem perform_one (s : Setup) (m : Machine) (file : Text) : ∃ reported,
    (∃ disk, Translates s m.directory file m.disk disk ∧
      m.perform (translateFile s file >>= deliver s [] false file) = (.ok (), { m with disk, reported })) ∨
    ∃ f : Fault, Fails s m.directory file m.disk f.exitCode ∧
      m.perform (translateFile s file >>= deliver s [] false file) = (.error f, { m with reported }) := by
  obtain ⟨reported, ⟨e, hread, hrun⟩ | ⟨source, e, hread, herror, hrun⟩ |
    ⟨source, history, hread, hnone, hhistory, hrun⟩⟩ := translateFile_cases s m file
  · exact ⟨reported, .inr ⟨_, fails_of_unreadable hread, perform_bind_error hrun _⟩⟩
  · have hfails := fails_of_rejects ⟨source, hread, not_accepts herror⟩
    rw [← exitCode_sourceFault file e] at hfails
    exact ⟨reported, .inr ⟨_, hfails, perform_bind_error hrun _⟩⟩
  · have haccepts := accepts_of_error?_eq_none hnone hhistory
    rw [perform_bind_ok hrun]
    obtain ⟨disk, hwrite, hrun'⟩ | ⟨e, hwrite, hrun'⟩ :=
      writeOutput_cases { m with reported } (outputPath s.config file) (generated s file source history)
    · exact ⟨reported, .inl ⟨disk, ⟨source, history, hread, haccepts, hwrite⟩, hrun'⟩⟩
    · refine ⟨reported, .inr ⟨_, ?_, hrun'⟩⟩
      exact fails_of_unwritable hread haccepts hwrite

/-! ## All files -/

/-- Files are translated one after another. -/
inductive TranslatesAll (s : Setup) (directory : List Text) : List Text → Disk → Disk → Prop
  | nil (d : Disk) : TranslatesAll s directory [] d d
  | cons {file : Text} {files : List Text} {d d₁ d₂ : Disk} : Translates s directory file d d₁ →
      TranslatesAll s directory files d₁ d₂ → TranslatesAll s directory (file :: files) d d₂

/-- All files are translated, or those before the first that fails; by induction on the files. -/
theorem perform_translateAll (s : Setup) (m : Machine) (files : List Text) : ∃ disk reported,
    (TranslatesAll s m.directory files m.disk disk ∧
      m.perform (translateAll s [] false files) = (.ok (), { m with disk, reported })) ∨
    ∃ front file rest, ∃ f : Fault, files = front ++ file :: rest ∧
      TranslatesAll s m.directory front m.disk disk ∧ Fails s m.directory file disk f.exitCode ∧
      m.perform (translateAll s [] false files) = (.error f, { m with disk, reported }) := by
  induction files generalizing m with
  | nil => exact ⟨m.disk, m.reported, .inl ⟨.nil _, rfl⟩⟩
  | cons file files ih =>
    have hstep : translateAll s [] false (file :: files) =
        (translateFile s file >>= deliver s [] false file : ExceptT Fault (StateM Machine) Unit) >>=
          fun _ => translateAll s [] false files := by
      rw [translateAll, bind_assoc]
    rw [hstep]
    obtain ⟨reported, ⟨disk, htranslates, hrun⟩ | ⟨f, hfails, hrun⟩⟩ := perform_one s m file
    · rw [perform_bind_ok hrun]
      obtain ⟨disk', reported', ⟨hall, hrest⟩ | ⟨front, file', rest, f, rfl, hall, hfails, hrest⟩⟩ :=
        ih { m with disk, reported }
      · exact ⟨disk', reported', .inl ⟨.cons htranslates hall, hrest⟩⟩
      · exact ⟨disk', reported', .inr ⟨file :: front, file', rest, f, rfl, .cons htranslates hall, hfails, hrest⟩⟩
    · rw [perform_bind_error hrun]
      exact ⟨m.disk, reported, .inr ⟨[], file, files, f, rfl, .nil _, hfails, rfl⟩⟩

/-! ## The command -/

variable {version : Text} {args : List Text} {line : CommandLine} {m m' : Machine}

theorem run_of_ok (hline : CommandLine.parse args = .ok line)
    (h : m.perform (execute version line) = (.ok (), m')) :
    (run version args : StateM Machine Nat) m = (0, m') := by
  have hjob : (execute version line : ExceptT Fault (StateM Machine) Unit).run m = (.ok (), m') := h
  simp only [run, hline, bind, StateT.bind, hjob]
  rfl

theorem run_of_error {f : Fault} (hline : CommandLine.parse args = .ok line)
    (h : m.perform (execute version line) = (.error f, m')) :
    ∃ reported, (run version args : StateM Machine Nat) m = (f.exitCode, { m' with reported }) := by
  have hjob : (execute version line : ExceptT Fault (StateM Machine) Unit).run m = (.error f, m') := h
  obtain ⟨reported, hreport⟩ : ∃ reported,
      (reportFault f : StateM Machine Unit) m' = ((), { m' with reported }) := by
    rw [reportFault]
    split
    · exact ⟨_, rfl⟩
    · exact ⟨m'.reported, rfl⟩
  refine ⟨reported, ?_⟩
  simp only [run, hline, bind, StateT.bind, hjob, hreport]
  rfl

/-- A run translates all files, or those in front of the first one that fails, which changes no
file. Its exit code is that of the failure. -/
theorem run_translate {version : Text} {args files : List Text} {options : Options} {s : Setup} {m : Machine}
    (hline : CommandLine.parse args = .ok { options, action := .translate files [] false })
    (hsetup : (m.perform (Setup.prepare version options)).1 = .ok s) :
    ∃ code disk reported,
      (run version args : StateM Machine Nat) m = (code, { m with disk, reported }) ∧
      ((TranslatesAll s m.directory files m.disk disk ∧ code = 0) ∨
        ∃ front file rest, files = front ++ file :: rest ∧ TranslatesAll s m.directory front m.disk disk ∧
          Fails s m.directory file disk code) := by
  have hexecute : m.perform (execute version { options, action := .translate files [] false }) =
      m.perform (translateAll s [] false files) := by
    rw [execute, if_neg (by simp), perform_bind_ok (Setup.perform_prepare hsetup)]
    rfl
  obtain ⟨disk, reported, ⟨hall, hrun⟩ | ⟨front, file, rest, f, hfiles, hall, hfails, hrun⟩⟩ :=
    perform_translateAll s m files
  · exact ⟨0, disk, reported, run_of_ok hline (hexecute.trans hrun), .inl ⟨hall, rfl⟩⟩
  · obtain ⟨reported', hrun'⟩ := run_of_error hline (hexecute.trans hrun)
    exact ⟨f.exitCode, disk, reported', hrun', .inr ⟨front, file, rest, hfiles, hall, hfails⟩⟩

/-- The second file is the output of the first one, which is no source: when its turn comes it is
there, and it is left as it is. -/
theorem run_translate_output : ∃ (m : Machine) (s : Setup),
    (m.perform (Setup.prepare "dev" {})).1 = .ok s ∧ m.hasFile "a.d" = false ∧
    ∃ front file rest disk reported, (["a.delight", "a.d"] : List Text) = front ++ file :: rest ∧
      TranslatesAll s m.directory front m.disk disk ∧ Rejects s m.directory file disk ∧
      (run "dev" ["translate", "a.delight", "a.d"] : StateM Machine Nat) m = (3, { m with disk, reported }) := by
  obtain ⟨m, hm⟩ : ∃ m : Machine, m = {
      disk := (Disk.putFile {} [".delight.yaml"] "header: false\n").putFile ["a.delight"] "x = 1\n" } := ⟨_, rfl⟩
  have hline : CommandLine.parse ["translate", "a.delight", "a.d"] =
      .ok { options := {}, action := .translate ["a.delight", "a.d"] [] false } := by decide +kernel
  have hok : (m.perform (Setup.prepare "dev" {})).1.toBool = true := by
    rw [hm]
    decide +kernel
  have hcode : ((run "dev" ["translate", "a.delight", "a.d"] : StateM Machine Nat) m).1 = 3 := by
    rw [hm]
    decide +kernel
  rcases hsetup : (m.perform (Setup.prepare "dev" {})).1 with e | s
  · rw [hsetup] at hok
    cases hok
  obtain ⟨code, disk, reported, hrun, hcases⟩ := run_translate hline hsetup
  rw [hrun] at hcode
  obtain rfl : code = 3 := hcode
  rcases hcases with ⟨-, hzero⟩ | ⟨front, file, rest, hfiles, hall, hfails⟩
  · cases hzero
  have hrejects : Rejects s m.directory file disk := by
    by_contra hno
    cases hfails.other hno
  refine ⟨m, s, hsetup, ?_, front, file, rest, disk, reported, hfiles, hall, hrejects, hrun⟩
  rw [hm]
  decide +kernel

end Command

end Offside
