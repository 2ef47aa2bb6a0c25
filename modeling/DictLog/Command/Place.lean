/-
# Places

A **place** is what a path can lead to: a directory, a file, or a device, which only brings or takes
bytes.  Places are named by their steps from the root.  Some are there on every system; the working
directory stands among the temporary files.
-/
import DictLog.Fault

namespace DictLog.Command

/-- The way from the root to a place. -/
abbrev Steps := List String

/-- A device. -/
inductive Device where
  /-- The standard input. -/
  | stdin
  /-- The standard output. -/
  | stdout
  /-- The standard stream of messages. -/
  | stderr
  /-- Brings nothing and takes everything. -/
  | null
  /-- Brings zeros without end and takes everything. -/
  | zero
  /-- Brings zeros without end and has no room left. -/
  | full
  deriving DecidableEq, Repr

/-- What a path leads to. -/
inductive Place where
  | directory
  | device (device : Device)
  | file (steps : Steps)
  deriving DecidableEq, Repr

/-! ## 1. Why there is no way to a place -/

/-- Nothing is there. -/
def notFound : IoFault := .system 2 "NotFound" "No such file or directory"

/-- A path goes on behind something that is no directory. -/
def notADirectory : IoFault := .system 20 "NotADirectory" "Not a directory"

/-- A directory stands where a file is due. -/
def isADirectory : IoFault := .system 21 "IsADirectory" "Is a directory"

/-- A device has no room left. -/
def noSpace : IoFault := .system 28 "StorageFull" "No space left on device"

/-- A path, or one of its steps, is too long. -/
def nameTooLong : IoFault := .system 36 "InvalidFilename" "File name too long"

/-- The length of the longest step, in bytes. -/
def longestStep : Nat := 255

/-- The length of the longest path, in bytes. -/
def longestPath : Nat := 4095

/-! ## 2. What is there on every system -/

namespace Hierarchy

/-- The working directory. -/
def home : Steps := ["tmp", "work"]

/-- The directories. -/
def directories : List Steps :=
  [[], ["bin"], ["boot"], ["dev"], ["dev", "pts"], ["dev", "shm"], ["etc"], ["home"], ["lib"],
    ["media"], ["mnt"], ["opt"], ["proc"], ["proc", "self"], ["proc", "self", "fd"], ["root"],
    ["run"], ["sbin"], ["srv"], ["sys"], ["tmp"], home, ["usr"], ["usr", "bin"], ["usr", "lib"],
    ["usr", "local"], ["usr", "sbin"], ["usr", "share"], ["var"], ["var", "lib"], ["var", "log"],
    ["var", "tmp"]]

/-- The devices. -/
def devices : List (Steps × Device) :=
  [(["dev", "null"], .null), (["dev", "zero"], .zero), (["dev", "full"], .full),
    (["proc", "self", "fd", "0"], .stdin), (["proc", "self", "fd", "1"], .stdout),
    (["proc", "self", "fd", "2"], .stderr)]

/-- The places that have a second way to them, that way first. -/
def links : List (Steps × Steps) :=
  [(["dev", "stdin"], ["proc", "self", "fd", "0"]),
    (["dev", "stdout"], ["proc", "self", "fd", "1"]),
    (["dev", "stderr"], ["proc", "self", "fd", "2"]), (["dev", "fd"], ["proc", "self", "fd"]),
    (["proc", "self", "cwd"], home), (["proc", "self", "root"], [])]

/-- The proper way to a place. -/
def follow (steps : Steps) : Steps :=
  (links.lookup steps).getD steps

/-- Whether a directory has no room for names other than its own: those of processes only show what
there is. -/
def isFixed (directory : Steps) : Bool :=
  directory.head? == some "proc"

end Hierarchy

end DictLog.Command
