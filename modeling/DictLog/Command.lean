/-
# The command line program

The program reads its command line, opens the input, creates the output, does the job and tells
what came of it.  It ends with 0 if all went well, with 1 if the job failed, and with 2 if the
command line is not understood.
-/
import DictLog.Command.Report
import DictLog.Command.Workspace

namespace DictLog.Command

/-! ## 1. Texts -/

/-- The name and version of the program. -/
def versionText : String :=
  "dlog 0.1.0\n"

/-- How to use the program. -/
def helpText : String :=
  "Dictionary-interned binary log streams\n\n" ++
    "Usage: dlog encode [OPTIONS] <INPUT>\n" ++
    "       dlog decode [OPTIONS] <INPUT>\n" ++
    "       dlog ls [OPTIONS] <INPUT>\n\n" ++
    "INPUT is a path, or - for the standard input.\n"

/-- Why a job failed. -/
inductive Failure where
  | open (path : String) (cause : IoFault)
  | create (path : String) (cause : IoFault)
  | fault (fault : Fault)

/-- The failure in words. -/
def Failure.text : Failure → String
  | .open path cause => "Error: " ++ Text.quoted s!"cannot open {path}: {cause.message}" ++ "\n"
  | .create path cause => "Error: " ++ Text.quoted s!"cannot create {path}: {cause.message}" ++ "\n"
  | .fault f => "Error: " ++ f.dump ++ "\n"

/-! ## 2. Runs -/

/-- What a run of the program leaves behind. -/
structure Outcome where
  exitCode : Nat
  stdout : List UInt8 := []
  stderr : List UInt8 := []
  workspace : Workspace

namespace Outcome

/-- A run that fails. -/
def failed (failure : Failure) (workspace : Workspace) : Outcome :=
  { exitCode := 1, stderr := Utf8.encode failure.text, workspace }

/-- A run that has no job. -/
def stopped (workspace : Workspace) : Stop → Outcome
  | .misuse => { exitCode := 2, stderr := Utf8.encode helpText, workspace }
  | .help => { exitCode := 0, stdout := Utf8.encode helpText, workspace }
  | .version => { exitCode := 0, stdout := Utf8.encode versionText, workspace }

/-- A run that has done its job, the output standing at a place. -/
def reported (place : Place) (elapsed : String) (report : Report) (w : Workspace) : Outcome :=
  let (exitCode, words) := match report.outcome with
    | .ok notice => (0, notice.text elapsed)
    | .error fault => (1, (Failure.fault fault).text)
  let stderr := Utf8.encode words
  match place with
  | .device .stdout => { exitCode, stdout := report.output, stderr, workspace := w }
  | .device .stderr => { exitCode, stderr := report.output ++ stderr, workspace := w }
  | .file steps => { exitCode, stderr, workspace := w.put steps report.output }
  | _ => { exitCode, stderr, workspace := w }

end Outcome

/-- Whether a path stands for the standard input: a dash, perhaps with slashes behind it. -/
def isStandard (path : String) : Bool :=
  match path.splitOn "/" with
  | "-" :: steps => steps.all ["", "."].contains
  | _ => false

/-- The place of an input. -/
def openInput (path : String) (w : Workspace) : Except Failure Place :=
  if isStandard path then .ok (.device .stdin)
  else (w.place path).mapError (.open path)

/-- The place of an output, which is created. -/
def openOutput (path? : Option String) (w : Workspace) : Except Failure (Place × Workspace) :=
  match path? with
  | none => .ok (.device .stdout, w)
  | some path => (w.create path).mapError (.create path)

/-- How a place takes what is written to it. -/
def Place.sink : Place → Sink
  | .device .full => .refusing noSpace
  | _ => .accepting

/-- Do a job; the input is opened before the output is created. -/
def Invocation.run (invocation : Invocation) (w : Workspace) (elapsed : String) : Outcome :=
  match openInput invocation.input w with
  | .error failure => .failed failure w
  | .ok input =>
    match openOutput invocation.job.output? w with
    | .error failure => .failed failure w
    | .ok (output, w) =>
      .reported output elapsed (invocation.job.report (w.read input) output.sink) w

/-- A run of the program, `elapsed` being the time that the job takes. -/
def main (args : List String) (w : Workspace) (elapsed : String) : Outcome :=
  match Invocation.ofArguments args with
  | .error stop => .stopped w stop
  | .ok invocation => invocation.run w elapsed

end DictLog.Command
