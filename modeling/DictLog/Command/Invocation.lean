/-
# What the program can be asked to do

The program encodes lines, decodes a stream, or lists the records of a stream.  The first plain
argument names the command, and the arguments behind it are the command's own.
-/
import DictLog.Command.Arguments
import DictLog.Options

namespace DictLog.Command

/-! ## 1. Invocations -/

/-- How the counts are told at the end. -/
inductive Notices where
  | sentence
  | json
  deriving DecidableEq, Repr

/-- How a listing is shown. -/
inductive ListingForm where
  | table
  | document
  deriving DecidableEq, Repr

/-- Lines to be encoded. -/
structure EncodeRequest where
  output : Option String := none
  options : EncodeOptions := {}
  notices : Notices := .sentence

/-- A stream to be decoded. -/
structure DecodeRequest where
  output : Option String := none
  limits : Limits := {}
  notices : Notices := .sentence

/-- A stream to be listed. -/
structure ListRequest where
  form : ListingForm := .table
  skipValues : Bool := false
  summaryOnly : Bool := false
  limits : Limits := {}

/-- A command and what it is to do. -/
inductive Job where
  | encode (request : EncodeRequest)
  | decode (request : DecodeRequest)
  | list (request : ListRequest)

/-- The path of the output, if it is not the standard one. -/
def Job.output? : Job → Option String
  | encode r => r.output
  | decode r => r.output
  | list _ => none

/-- A job and the path of its input, `-` for the standard one. -/
structure Invocation where
  input : String
  job : Job

/-! ## 2. Values -/

/-- A number of 64 bits: decimal digits, perhaps behind a plus sign. -/
def word? (text : String) : Option Nat :=
  let digits := match text.toList with
    | '+' :: ds => ds
    | ds => ds
  if digits.isEmpty || !digits.all Char.isDigit then none
  else
    let n := digits.foldl (fun n c => 10 * n + (c.toNat - '0'.toNat)) 0
    if n < 0x10000000000000000 then some n else none

/-- A path is any text but the empty one. -/
def path? (text : String) : Option String :=
  if text.isEmpty then none else some text

/-- A form of listing by name. -/
def ListingForm.ofString? : String → Option ListingForm
  | "table" => some .table
  | "json" => some .document
  | _ => none

/-- The choice of a number. -/
def wordChoice {α : Type} (name : String) (set : Nat → α → α) : Choice α :=
  { name, effect := .value fun text r => (word? text).map (set · r) }

/-! ## 3. Choices -/

/-- What may be chosen everywhere.  Being verbose changes no result. -/
def commonChoices (α : Type) : List (Choice α) :=
  [{ name := "verbose", letter := some 'v', effect := .switch id },
    { name := "help", letter := some 'h', effect := .stop .help }]

/-- The choice of an output. -/
def outputChoice {α : Type} (set : String → α → α) : Choice α :=
  { name := "output", letter := some 'o', effect := .value fun text r => (path? text).map (set · r) }

/-- The choice of a progress display, which changes no result. -/
def progressChoice (α : Type) : Choice α :=
  { name := "progress", effect := .switch id }

/-- The choices of limits. -/
def limitChoices {α : Type} (change : (Limits → Limits) → α → α) : List (Choice α) :=
  [wordChoice "max-string-len" fun n => change fun l => { l with maxStringLength := n },
    wordChoice "max-payload-len" fun n => change fun l => { l with maxPayloadLength := n },
    wordChoice "max-nesting-depth" fun n => change fun l => { l with maxNestingDepth := n },
    wordChoice "max-dictionary-entries" fun n =>
      change fun l => { l with maxDictionaryEntries := n }]

/-- The choices of options; no string enters the dictionary without being sighted. -/
def optionChoices {α : Type} (change : (EncodeOptions → EncodeOptions) → α → α) :
    List (Choice α) :=
  [{ name := "intern-threshold"
     effect := .value fun text r =>
      match word? text with
      | some (n + 1) => some (change (fun o => { o with internThreshold := n + 1 }) r)
      | _ => none },
    wordChoice "intern-cache-size" fun n => change fun o => { o with internCacheSize := n },
    wordChoice "clear-threshold" fun n => change fun o => { o with clearThreshold := some n },
    { name := "reset-usage-on-clear"
      effect := .switch (change fun o => { o with resetUsageOnClear := true }) },
    wordChoice "max-nesting-depth" fun n => change fun o => { o with maxNestingDepth := n }]

/-- What may be chosen in encoding. -/
def encodeChoices : List (Choice EncodeRequest) :=
  outputChoice (fun path r => { r with output := some path }) ::
    { name := "json-summary", effect := .switch fun r => { r with notices := .json } } ::
    progressChoice EncodeRequest :: optionChoices (fun f r => { r with options := f r.options }) ++
    commonChoices EncodeRequest

/-- What may be chosen in decoding. -/
def decodeChoices : List (Choice DecodeRequest) :=
  outputChoice (fun path r => { r with output := some path }) ::
    { name := "json-summary", effect := .switch fun r => { r with notices := .json } } ::
    progressChoice DecodeRequest :: limitChoices (fun f r => { r with limits := f r.limits }) ++
    commonChoices DecodeRequest

/-- What may be chosen in listing. -/
def listChoices : List (Choice ListRequest) :=
  { name := "format"
    effect := .value fun text r =>
      (ListingForm.ofString? text).map fun form => { r with form } } ::
    { name := "skip-values", effect := .switch fun r => { r with skipValues := true } } ::
    { name := "summary-only", effect := .switch fun r => { r with summaryOnly := true } } ::
    limitChoices (fun f r => { r with limits := f r.limits }) ++ commonChoices ListRequest

/-- What may be chosen in front of the command. -/
def openingChoices : List (Choice Unit) :=
  { name := "version", letter := some 'V', effect := .stop .version } :: commonChoices Unit

/-! ## 4. Commands -/

/-- The commands. -/
inductive Name where
  | encode
  | decode
  | list
  deriving DecidableEq, Repr

/-- A command by name. -/
def Name.ofString? : String → Option Name
  | "encode" => some .encode
  | "decode" => some .decode
  | "ls" => some .list
  | _ => none

/-- The invocation of a command. -/
def Name.invocation (args : List String) : Name → Except Stop Invocation
  | encode => do
    let (input, request) ← readArguments encodeChoices {} args
    return ⟨input, .encode request⟩
  | decode => do
    let (input, request) ← readArguments decodeChoices {} args
    return ⟨input, .decode request⟩
  | list => do
    let (input, request) ← readArguments listChoices {} args
    return ⟨input, .list request⟩

/-- Help may be asked for about a command, or about help. -/
def helpStop : List String → Stop
  | [] => .help
  | [topic] => if topic == "help" || (Name.ofString? topic).isSome then .help else .misuse
  | _ => .misuse

/-- The invocation of a command line, once what stands in front of it is in the draft. -/
def invocationFrom (opening : Draft Unit) : List String → Except Stop Invocation
  | [] => .error .misuse
  | arg :: rest =>
    match Argument.ofString arg with
    | .plain text =>
      if text == "help" then .error (helpStop rest)
      else
        match Name.ofString? text with
        | some name => name.invocation rest
        | none => .error .misuse
    | .escape => .error .misuse
    | _ =>
      match opening.take openingChoices arg with
      | .ok opening => invocationFrom opening rest
      | .error stop => .error stop

/-- The invocation of a command line. -/
def Invocation.ofArguments (args : List String) : Except Stop Invocation :=
  invocationFrom { request := () } args

end DictLog.Command
