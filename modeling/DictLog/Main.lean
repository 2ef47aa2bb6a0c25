/-
# The program

The run of `Command.main` on the files and the standard streams of the machine.
-/
import DictLog.Command

namespace DictLog.Machine

open Command

/-- How a number of the system is called. -/
def causeName : Nat → String
  | 2 => "NotFound"
  | 13 => "PermissionDenied"
  | 20 => "NotADirectory"
  | 21 => "IsADirectory"
  | 28 => "StorageFull"
  | 32 => "BrokenPipe"
  | 36 => "InvalidFilename"
  | _ => "Uncategorized"

/-- The cause that the system gives. -/
def causeOf : IO.Error → IoFault
  | .userError sentence => .other sentence
  | .unexpectedEof => .other "unexpected end of file"
  | .otherError code s | .resourceBusy code s | .resourceVanished code s
  | .unsupportedOperation code s | .hardwareFault code s | .unsatisfiedConstraints code s
  | .illegalOperation code s | .protocolError code s | .timeExpired code s
  | .alreadyExists _ code s | .interrupted _ code s | .noFileOrDirectory _ code s
  | .invalidArgument _ code s | .permissionDenied _ code s | .resourceExhausted _ code s
  | .inappropriateType _ code s | .noSuchThing _ code s =>
    .system code.toNat (causeName code.toNat) s

/-- Read to the end, or to the first failure. -/
partial def readAll (read : USize → IO ByteArray) (bytes : ByteArray) : IO Tape := do
  match ← (read 65536).toBaseIO with
  | .ok chunk =>
    if chunk.isEmpty then return .ofBytes bytes.data.toList
    else readAll read (bytes ++ chunk)
  | .error e => return { rest := bytes.data.toList, ending := .failing (causeOf e) }

/-- A duration in the largest unit that it fills, with two digits behind the point. -/
def elapsedText (nanoseconds : Nat) : String :=
  let (unit, name) :=
    if 1000000000 ≤ nanoseconds then (1000000000, "s")
    else if 1000000 ≤ nanoseconds then (1000000, "ms")
    else if 1000 ≤ nanoseconds then (1000, "µs")
    else (1, "ns")
  let hundredths := roundHalfEven (100 * nanoseconds) unit
  let digits := toString (hundredths % 100)
  let pad := if digits.length < 2 then "0" else ""
  s!"{hundredths / 100}.{pad}{digits}{name}"

/-- Open an input. -/
def openSource (path : String) : IO (Except Failure (USize → IO ByteArray)) := do
  if isStandard path then
    let stdin ← IO.getStdin
    return .ok stdin.read
  match ← (IO.FS.Handle.mk path .read).toBaseIO with
  | .ok handle => return .ok handle.read
  | .error e => return .error (.open path (causeOf e))

/-- Create an output. -/
def openSink (path? : Option String) : IO (Except Failure (ByteArray → IO Unit)) := do
  let some path := path?
    | do
      let stdout ← IO.getStdout
      return .ok fun bytes => do stdout.write bytes; stdout.flush
  match ← (IO.FS.Handle.mk path .write).toBaseIO with
  | .ok handle => return .ok fun bytes => do handle.write bytes; handle.flush
  | .error e => return .error (.create path (causeOf e))

/-- Tell why the job failed. -/
def fail (failure : Failure) : IO UInt32 := do
  IO.eprint failure.text
  return 1

/-- Do a job on the machine. -/
def run (invocation : Invocation) : IO UInt32 := do
  let start ← IO.monoNanosNow
  match ← openSource invocation.input with
  | .error failure => fail failure
  | .ok read =>
    match ← openSink invocation.job.output? with
    | .error failure => fail failure
    | .ok write =>
      let input ← readAll read .empty
      let report := invocation.job.report input .accepting
      let outcome ← match ← (write ⟨report.output.toArray⟩).toBaseIO with
        | .ok () => pure report.outcome
        | .error e => pure (invocation.job.report input (.refusing (causeOf e))).outcome
      match outcome with
      | .error fault => fail (.fault fault)
      | .ok notice =>
        IO.eprint (notice.text (elapsedText ((← IO.monoNanosNow) - start)))
        return 0

end DictLog.Machine

/-- Read the command line and do what it says. -/
def main (args : List String) : IO UInt32 := do
  match DictLog.Command.Invocation.ofArguments args with
  | .ok invocation => DictLog.Machine.run invocation
  | .error stop =>
    let outcome := DictLog.Command.Outcome.stopped {} stop
    IO.print ((DictLog.Utf8.decode outcome.stdout).toOption.getD "")
    IO.eprint ((DictLog.Utf8.decode outcome.stderr).toOption.getD "")
    return outcome.exitCode.toUInt32
