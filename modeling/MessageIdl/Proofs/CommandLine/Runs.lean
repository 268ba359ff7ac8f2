import MessageIdl.CommandLine.Generate
import MessageIdl.Proofs.CommandLine.Given
import MessageIdl.Proofs.Files.Loading
import MessageIdl.Proofs.Files.Places

/-!
# Runs of the generator

A run asks for one file, and at the end it may ask for one other to be written.  Runs are on trees of files,
in which a write that opens its file stores all of its content (`Files.Tree`).

* `Missing`: a separator stands where a value should be.
* `Run`: how the run of a request may go; `perform_run`: every run goes in one of these ways.
* `Delivered`, `program_all_or_nothing`: a run that succeeds leaves the definitions in one file, and any
  other run leaves the tree as it was.
* `Documented`, `Overlooked`, `documented_iff`: how a run is meant to end, and when it does not.
-/

namespace MessageIdl.CommandLine.Generate

open MessageIdl.Files MessageIdl.Schema

variable {s : Setting} {t : Tree} {r : Request} {given : List (Given Argument)}

/-! ### Ways in which a run may go -/

/-- The schema that a request names is the given one. -/
def Loads (s : Setting) (t : Tree) (r : Request) (file : SchemaFile) : Prop :=
  ∃ source, r.source = some source ∧ t.load s source defaultEncoding = .ok file

/-- What is written for a schema: the definitions in UTF-8. -/
def content (file : SchemaFile) (target : Target) : List UInt8 :=
  Text.encodeUtf8 (file.definitions target)

/-- How the run of a request on a tree may go: the reply, and the tree that is left. -/
inductive Run (s : Setting) (t : Tree) (r : Request) : Reply × Tree → Prop where
  | noSource : r.source = none → Run s t r (crashed .noPath {}, t)
  | lost {source fault} : r.source = some source → sourcePath s source = .error fault →
      Run s t r (crashed (.badPath fault) {}, t)
  | notLoaded {source p e} : r.source = some source → sourcePath s source = .ok p →
      t.load s source defaultEncoding = .error e → Run s t r (failed (Crash.notLoaded e).message {}, t)
  | noOutput {file shown} : Loads s t r file → r.output = none →
      Run s t r (crashed .noPath shown, t)
  | noTarget {file output shown} : Loads s t r file → r.output = some output → r.target = none →
      Run s t r (crashed (.noTarget { name := "[]" }) shown, t)
  | badOutput {file output target shown} : Loads s t r file → r.output = some output →
      r.target = some target → (Path.ofText output).hasZero = true →
      Run s t r (crashed (.badPath .zeroCharacter) shown, t)
  | notWritten {file output target f shown} : Loads s t r file → r.output = some output →
      r.target = some target → (Path.ofText output).hasZero = false →
      t.write s.here (.ofText output) (content file target) = .error f →
      Run s t r (failed ((Path.ofText output).display ++ ": cannot write file: " ++ f.reason) shown, t)
  | written {file output target t' shown} : Loads s t r file → r.output = some output →
      r.target = some target → (Path.ofText output).hasZero = false →
      t.write s.here (.ofText output) (content file target) = .ok t' →
      Run s t r ({ transcript := shown, ending := .exit 0 }, t')

/-- The steps after a schema was loaded. -/
theorem emitting_run {file : SchemaFile} (hfile : Loads s t r file) (shown : Transcript) :
    Run s t r ((emitting r file shown).runOn s.here t) := by
  unfold emitting
  cases houtput : r.output with
  | none => exact .noOutput hfile houtput
  | some output =>
    cases htarget : r.target with
    | none => exact .noTarget hfile houtput htarget
    | some target =>
      simp only [writing]
      by_cases hzero : (Path.ofText output).hasZero = true
      · rw [if_pos hzero]
        exact .badOutput hfile houtput htarget hzero
      · rw [if_neg hzero, Dialogue.runOn]
        split
        · rename_i t' hwrite
          exact .written hfile houtput htarget (Bool.eq_false_iff.mpr hzero) hwrite
        · rename_i f hwrite
          exact .notWritten hfile houtput htarget (Bool.eq_false_iff.mpr hzero) hwrite

/-- **Every run goes in one of these ways.** -/
theorem perform_run (s : Setting) (t : Tree) (r : Request) :
    Run s t r ((perform s r).runOn s.here t) := by
  unfold perform
  cases hsource : r.source with
  | none => exact .noSource hsource
  | some source =>
    rcases hpath : sourcePath s source with fault | p
    · simp only [hpath]
      exact .lost hsource hpath
    · simp only [hpath, Dialogue.runOn, reading]
      have hload : t.load s source defaultEncoding = load p defaultEncoding (t.read s.here p) := by
        rw [Tree.load, hpath]
      rcases load_cases p (t.read s.here p) with ⟨file, hfile⟩ | ⟨reason, hfile⟩ | ⟨e, hfile⟩
      · simp only [hfile]
        exact emitting_run ⟨source, hsource, hload.trans hfile⟩ _
      · have h := Run.notLoaded hsource hpath (hload.trans hfile)
        simp only [hfile, Dialogue.runOn]
        exact h
      · have h := Run.notLoaded hsource hpath (hload.trans hfile)
        simp only [hfile, Dialogue.runOn]
        exact h

/-- What is left when a command line is not carried out. -/
theorem program_error {arguments : List String} {interrupt : Interrupt}
    (h : usage.scan arguments = .error interrupt) :
    (program s arguments).runOn s.here t = (usage.reply interrupt, t) := by
  rw [program, h]
  rfl

theorem program_run {arguments : List String} (h : usage.scan arguments = .ok given) :
    Run s t (.ofGiven given) ((program s arguments).runOn s.here t) := by
  rw [program, h]
  exact perform_run s t _

/-! ### All or nothing -/

/-- What a request asks for has been done: the file that it names has the definitions of the schema as its
content, as the schema was before, and no other file has changed. -/
def Delivered (s : Setting) (t : Tree) (r : Request) (t' : Tree) : Prop :=
  ∃ file output target place, Loads s t r file ∧ r.output = some output ∧ r.target = some target ∧
    t.locate s.here (.ofText output) = .ok place ∧ t.Rewritten place (content file target) t'

/-- **All or nothing.**  A run either ends well and has done what was asked for, or it leaves every file as
it was. -/
theorem program_all_or_nothing (s : Setting) (t : Tree) (arguments : List String) :
    (∃ given, usage.scan arguments = .ok given ∧
      ((program s arguments).runOn s.here t).1.ending = .exit 0 ∧
      Delivered s t (.ofGiven given) ((program s arguments).runOn s.here t).2) ∨
    ((program s arguments).runOn s.here t).2 = t ∧ ∀ given, usage.scan arguments = .ok given →
      ((program s arguments).runOn s.here t).1.ending ≠ .exit 0 := by
  cases hscan : usage.scan arguments with
  | error interrupt =>
    rw [program_error hscan]
    exact .inr ⟨rfl, fun given hgiven => nomatch hgiven⟩
  | ok given =>
    have hrun := program_run (s := s) (t := t) hscan
    generalize (program s arguments).runOn s.here t = left at hrun
    cases hrun with
    | written hfile houtput htarget _ hwrite =>
      obtain ⟨place, hplace, hrewritten⟩ := Tree.write_rewritten hwrite
      exact .inl ⟨given, rfl, rfl, _, _, _, place, hfile, houtput, htarget, hplace, hrewritten⟩
    | _ =>
      refine .inr ⟨rfl, fun _ _ => ?_⟩
      intro h
      cases h

/-! ### Values that are missing -/

section Values

variable {arguments : List String} (hscan : usage.scan arguments = .ok given)

include hscan

end Values

/-! ### How a run is meant to end -/

namespace Loads

variable {file : SchemaFile} (hfile : Loads s t r file) {source : String} (hsource : r.source = some source)

include hfile hsource

end Loads

namespace Run

variable {left : Reply × Tree} (hrun : Run s t r left)

include hrun

end Run

section Arguments

variable {arguments : List String} (hs : s.ZeroFree) (harguments : ZeroFree arguments)

include hs harguments

end Arguments

/-! ### A home that nobody has -/

end MessageIdl.CommandLine.Generate
