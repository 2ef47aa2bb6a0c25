/-
# Files

A workspace is what a job finds and leaves behind: the standard input and the files.  A path leads
to a place step by step, from the root if it begins with a slash and otherwise from the working
directory; it goes on only from directories, and one that ends with a slash has to lead to one.
Opening a place reads it later, so a file that is created over itself is empty when it is read.

* `content?_put` — a file has the content that was put there.
* `content?_put_of_ne` — and the other files keep theirs.
-/
import DictLog.Command.Place
import DictLog.Feed

namespace DictLog.Command

/-- The standard input and the files. -/
structure Workspace where
  stdin : List UInt8 := []
  files : List (Steps × List UInt8) := []
  deriving Repr

namespace Workspace

/-! ## 1. Files -/

/-- The steps to a file in the working directory, as it is named there. -/
def stepsOf (name : String) : Steps :=
  Hierarchy.home ++ (name.splitOn "/").filter fun step => step != "" && step != "."

/-- A workspace with some files in the working directory. -/
def ofFiles (stdin : List UInt8) (files : List (String × List UInt8)) : Workspace :=
  { stdin, files := files.map fun f => (stepsOf f.1, f.2) }

/-- The content of a file. -/
def content? (w : Workspace) (steps : Steps) : Option (List UInt8) :=
  w.files.lookup steps

/-- The workspace with a file, in place of one that was there. -/
def put (steps : Steps) (content : List UInt8) (w : Workspace) : Workspace :=
  { w with files := (steps, content) :: w.files.filter fun f => f.1 != steps }

@[simp] theorem content?_put (steps : Steps) (content : List UInt8) (w : Workspace) :
    (w.put steps content).content? steps = some content := by
  simp [put, content?]

/-- Writing a file leaves all others as they were. -/
theorem content?_put_of_ne {steps other : Steps} (h : other ≠ steps) (content : List UInt8)
    (w : Workspace) : (w.put steps content).content? other = w.content? other := by
  have hne : (other == steps) = false := beq_eq_false_iff_ne.mpr h
  simp only [put, content?, List.lookup_cons, hne]
  induction w.files with
  | nil => rfl
  | cons file rest ih =>
    obtain ⟨path, bytes⟩ := file
    by_cases hp : path = steps
    · subst hp
      simp [List.lookup_cons, hne, ih]
    · simp [hp, List.lookup_cons, ih]

/-! ## 2. Ways -/

/-- Whether a directory is there: one of the system, or one that a file lies in. -/
def hasDirectory (w : Workspace) (steps : Steps) : Bool :=
  Hierarchy.directories.contains steps ||
    w.files.any fun f => steps.isPrefixOf f.1 && f.1 != steps

/-- What stands at the end of some steps. -/
def at? (w : Workspace) (steps : Steps) : Option Place :=
  if w.hasDirectory steps then some .directory
  else match Hierarchy.devices.lookup steps with
    | some device => some (.device device)
    | none => (w.content? steps).map fun _ => .file steps

/-- One step on from a place. -/
def enter (w : Workspace) (here : Steps) (step : String) : Except IoFault Steps :=
  if !w.hasDirectory here then .error notADirectory
  else if step == "" || step == "." then .ok here
  else if step == ".." then .ok here.dropLast
  else if longestStep < step.utf8ByteSize && !Hierarchy.isFixed here then .error nameTooLong
  else
    let there := Hierarchy.follow (here ++ [step])
    if (w.at? there).isSome then .ok there else .error notFound

/-- Where a path begins. -/
def start (path : String) : Steps :=
  if path.startsWith "/" then [] else Hierarchy.home

/-- The place to which a path leads. -/
def place (w : Workspace) (path : String) : Except IoFault Place := do
  if longestPath < path.utf8ByteSize then throw nameTooLong
  let steps ← (path.splitOn "/").foldlM w.enter (start path)
  match w.at? steps with
  | some place => return place
  | none => throw notFound

/-- The content of the file at a path. -/
def file? (w : Workspace) (path : String) : Option (List UInt8) :=
  match w.place path with
  | .ok (.file steps) => w.content? steps
  | .ok (.device .null) => some []
  | _ => none

/-! ## 3. Opening -/

/-- Empty the file at a place, if it is one. -/
def overwrite (w : Workspace) : Place → Except IoFault (Place × Workspace)
  | .directory => .error isADirectory
  | .device device => .ok (.device device, w)
  | .file steps => .ok (.file steps, w.put steps [])

/-- Create or empty the file at a path.  A path that ends with a slash can only mean a directory,
whether one is there or not. -/
def create (w : Workspace) (path : String) : Except IoFault (Place × Workspace) := do
  if longestPath < path.utf8ByteSize then throw nameTooLong
  let names := (path.splitOn "/").filter (· != "")
  let some name := names.getLast? | throw isADirectory
  let parent ← names.dropLast.foldlM w.enter (start path)
  if !w.hasDirectory parent then throw notADirectory
  if path.endsWith "/" then throw isADirectory
  match w.enter parent name with
  | .ok steps => w.overwrite ((w.at? steps).getD (.file steps))
  | .error cause =>
    if cause != notFound || Hierarchy.isFixed parent then throw cause
    let steps := parent ++ [name]
    return (.file steps, w.put steps [])

/-- What is read at a place.  One zero stands for zeros without end: it begins no record. -/
def read (w : Workspace) : Place → Tape
  | .directory => { rest := [], ending := .failing isADirectory }
  | .device .stdin => .ofBytes w.stdin
  | .device .zero | .device .full => .ofBytes [0]
  | .device _ => .ofBytes []
  | .file steps => .ofBytes ((w.content? steps).getD [])

end Workspace

end DictLog.Command
