/-
# What ops run against

Ops know nothing of values, variables and channels but what an evaluator does with them. An
evaluator is a record of operations over a world of its own; each operation may change the state of
that world and may fail, and the changes made before a failure stay.
-/
import ShellOps.Op
import ShellOps.Port

namespace ShellOps

/-! ### Errors -/

/-- What has to be a single value. -/
inductive SingleUse
  | subscripted | tableKey | tableValue | filename
deriving DecidableEq

def SingleUse.name : SingleUse → String
  | subscripted => "subscripted value"
  | tableKey => "table key"
  | tableValue => "table value"
  | filename => "filename"

/-- Why a file cannot be opened. -/
inductive OpenError
  | noEntry | notDirectory | isDirectory | alreadyExists | nameTooLong | permissionDenied
  | invalidFlags
deriving DecidableEq

def OpenError.message : OpenError → String
  | noEntry => "No such file or directory"
  | notDirectory => "Not a directory"
  | isDirectory => "Is a directory"
  | alreadyExists => "File exists"
  | nameTooLong => "File name too long"
  | permissionDenied => "Permission denied"
  | invalidFlags => "Invalid argument"

/-- Why an op fails to run; `raised` is for the reasons of an evaluator. -/
inductive EvalFault
  | variableNotFound (name : Name)
  | capturedNotFound (name : Name)
  | notSingle (use : SingleUse) (count : Nat)
  | countMismatch (form : BindingForm) (names values : Nat)
  | functionValues (count : Nat)
  | badDescriptor (fd : Int)
  | filenameKind (kind : Ty)
  | openFailed (path : Bytes) (reason : OpenError)
  | raised (message : Bytes)
deriving DecidableEq

def EvalFault.message : EvalFault → Bytes
  | variableNotFound n => utf8 "variable $" ++ n ++ utf8 " not found"
  | capturedNotFound n => utf8 "captured variable $" ++ n ++ utf8 " not found"
  | notSingle use count => utf8 use.name ++ utf8 " must be a single value, got " ++ decimal count
  | countMismatch form names values =>
    utf8 form.name ++ utf8 ": " ++ decimal names ++ utf8 " names but " ++ decimal values ++
      utf8 " values"
  | functionValues count =>
    utf8 "fn: closure expression produced " ++ decimal count ++ utf8 " values"
  | badDescriptor fd => utf8 "bad file descriptor " ++ decimal fd
  | filenameKind kind => utf8 "filename must be a string, got " ++ utf8 kind.name
  | openFailed path reason =>
    utf8 "failed to open file \"" ++ path ++ utf8 "\": " ++ utf8 reason.message
  | raised message => message

/-- A fault at a place of the script. -/
structure EvalError where
  pos : Pos
  fault : EvalFault
deriving DecidableEq

/-- The message up to its first zero byte. -/
def EvalError.brief (e : EvalError) : Bytes := untilNul e.fault.message

/-! ### Worlds -/

/-- What an evaluator keeps, and its values, variables and channels. -/
structure World where
  State : Type
  Value : Type
  Variable : Type
  Channel : Type

/-- A step in a world. Its changes outlive a failure. -/
abbrev Run (w : World) := ExceptT EvalError (StateM w.State)

/-- Fails at a place of the script. -/
def fail {w : World} {α : Type} (pos : Pos) (fault : EvalFault) : Run w α := throw ⟨pos, fault⟩

/-- All that is needed to run one command. `special` runs the op of a special form. -/
structure CommandCall (w : World) (F : Type) where
  resolution : Resolution F
  special : Option (Run w (List w.Value))
  command : List w.Value
  args : List w.Value
  ports : List (Port w.Channel)
  pos : Pos

/-- A stage of a pipeline, and how to run it. -/
structure Stage (w : World) (F : Type) where
  op : Option (FormOp F)
  run : Run w (List w.Value)

/-- The operations of a world. -/
structure Evaluator (w : World) (F : Type) where
  /-- The kind of a value. -/
  typeOf : w.Value → Ty
  /-- A value as text. -/
  textOf : w.Value → Bytes
  makeString : Bytes → Run w w.Value
  makeTable : List w.Value → List (w.Value × w.Value) → Run w w.Value
  /-- A closure of some code and the variables it captured, in the order of their names. -/
  makeClosure : ClosureBody F → List (Name × w.Variable) → Run w w.Value
  makeChannel : Run w w.Channel
  /-- Joins two adjacent parts of a word. -/
  concat : w.Value → w.Value → Pos → Run w w.Value
  /-- The values at a key of a container. -/
  index : w.Value → w.Value → Pos → Run w (List w.Value)
  lookup : Name → Run w (Option w.Variable)
  get : w.Variable → Run w w.Value
  set : w.Variable → w.Value → Run w Unit
  define : Name → w.Value → Run w Unit
  remove : Name → Run w Unit
  /-- The port at a descriptor, if there is one. -/
  port : Int → Run w (Option (Port w.Channel))
  /-- Opens the file at a path, given flags and the mode of a new file. -/
  openFile : Bytes → Int32 → UInt32 → Run w (Except OpenError Int)
  closeFile : Int → Run w Unit
  closeChannel : w.Channel → Run w Unit
  call : CommandCall w F → Run w (List w.Value)
  /-- Runs the stages, each reading what the one before it writes. -/
  runPipeline : List (Stage w F) → Pos → Run w (List w.Value)
  /-- Runs an op and gives what it writes. -/
  captureOutput : ValuesOp F → Run w (List w.Value) → Run w (List w.Value)

/-- Closes what a port owns and leaves it empty. -/
def Port.close {w : World} {F : Type} (ev : Evaluator w F) (p : Port w.Channel) :
    Run w (Port w.Channel) := do
  if let some fd := p.ownedFile then ev.closeFile fd
  if let some c := p.ownedChannel then ev.closeChannel c
  return .empty

end ShellOps
