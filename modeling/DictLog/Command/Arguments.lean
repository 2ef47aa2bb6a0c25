/-
# Command lines

A command line is a list of arguments.  An argument is plain, or it names choices: by a name after
two dashes, or by letters after one.  A choice is a switch, or it takes a value, which is attached
(`--name=value`, `-nvalue`, `-n=value`) or is the next argument.  After `--` all arguments are
plain; one dash alone is always plain.  A command line has one plain argument, its **operand**.

Arguments are taken one after the other into a **draft** of a request.  Whatever stops the reading
stops it at the first argument that gives reason to.
-/

namespace DictLog.Command

/-! ## 1. Arguments -/

/-- An argument by its form. -/
inductive Argument where
  | plain (text : String)
  | named (name : String) (attached : Option String)
  | letters (cs : List Char)
  /-- All arguments from here on are plain. -/
  | escape
  deriving DecidableEq, Repr

/-- The form of an argument. -/
def Argument.ofString (arg : String) : Argument :=
  match arg.toList with
  | ['-', '-'] => .escape
  | '-' :: '-' :: cs =>
    let name := String.ofList (cs.takeWhile (· != '='))
    match cs.dropWhile (· != '=') with
    | [] => .named name none
    | _ :: value => .named name (some (String.ofList value))
  | '-' :: c :: cs => .letters (c :: cs)
  | _ => .plain arg

/-! ## 2. Choices -/

/-- Why reading ends before the end of the command line. -/
inductive Stop where
  /-- The command line is not understood. -/
  | misuse
  /-- It asks how to use the program. -/
  | help
  /-- It asks which program this is. -/
  | version
  deriving DecidableEq, Repr

/-- What a choice does to a request. -/
inductive Effect (α : Type) where
  | stop (reason : Stop)
  | switch (set : α → α)
  /-- A value that is malformed gives no request. -/
  | value (set : String → α → Option α)

/-- Something that a command line may choose, once. -/
structure Choice (α : Type) where
  name : String
  letter : Option Char := none
  effect : Effect α

/-! ## 3. Reading -/

/-- A request under construction. -/
structure Draft (α : Type) where
  request : α
  operand : Option String := none
  /-- The names of the choices made. -/
  made : List String := []
  /-- A choice that waits for its value. -/
  awaiting : Option (String → α → Option α) := none
  /-- Whether all arguments are plain from here on. -/
  onlyPlain : Bool := false

namespace Draft

variable {α : Type}

/-- The draft with another request, unless there is none. -/
def update (request? : Option α) (d : Draft α) : Except Stop (Draft α) :=
  match request? with
  | some request => .ok { d with request }
  | none => .error .misuse

/-- Make a choice, its value perhaps attached. -/
def choose (choice : Choice α) (attached : Option String) (d : Draft α) :
    Except Stop (Draft α) :=
  if choice.name ∈ d.made then .error .misuse
  else
    let d := { d with made := choice.name :: d.made }
    match choice.effect, attached with
    | .stop reason, none => .error reason
    | .switch set, none => .ok { d with request := set d.request }
    | .value set, some value => d.update (set value d.request)
    | .value set, none => .ok { d with awaiting := some set }
    | _, some _ => .error .misuse

/-- What is attached to a letter that takes a value. -/
def attachment : List Char → Option String
  | [] => none
  | '=' :: value => some (String.ofList value)
  | value => some (String.ofList value)

/-- Make choices by their letters; the rest behind a letter that takes a value is its value. -/
def chooseLetters (choices : List (Choice α)) : List Char → Draft α → Except Stop (Draft α)
  | [], d => .ok d
  | c :: cs, d =>
    match choices.find? fun choice => choice.letter == some c with
    | none => .error .misuse
    | some choice =>
      match choice.effect with
      | .value _ => d.choose choice (attachment cs)
      | _ => do chooseLetters choices cs (← d.choose choice none)

/-- Take a plain argument as the operand: there is one, and it is not empty. -/
def setOperand (text : String) (d : Draft α) : Except Stop (Draft α) :=
  if d.operand.isNone && !text.isEmpty then .ok { d with operand := some text }
  else .error .misuse

/-- Take an argument. -/
def take (choices : List (Choice α)) (d : Draft α) (arg : String) : Except Stop (Draft α) :=
  match d.awaiting, if d.onlyPlain then .plain arg else Argument.ofString arg with
  | some set, .plain value => { d with awaiting := none }.update (set value d.request)
  | some _, _ => .error .misuse
  | none, .plain text => d.setOperand text
  | none, .named name attached =>
    match choices.find? fun choice => choice.name == name with
    | none => .error .misuse
    | some choice => d.choose choice attached
  | none, .letters cs => d.chooseLetters choices cs
  | none, .escape => .ok { d with onlyPlain := true }

/-- The operand and the request, once nothing is awaited. -/
def finish (d : Draft α) : Except Stop (String × α) :=
  match d.awaiting, d.operand with
  | none, some operand => .ok (operand, d.request)
  | _, _ => .error .misuse

end Draft

/-- The operand and the request of a command line. -/
def readArguments {α : Type} (choices : List (Choice α)) (blank : α) (args : List String) :
    Except Stop (String × α) := do
  (← args.foldlM (Draft.take choices) { request := blank }).finish

end DictLog.Command
