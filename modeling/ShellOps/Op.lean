/-
# Ops

The compiler turns a script into a tree of ops. A values op yields a sequence of values, a form op
runs one stage of a pipeline, and a port op gives one descriptor of a stage its stream. Ops do not
refer to the script or to the scopes they were compiled in: a closure op lists the names it
captures. Where an op has no child, such as the arguments of a special form, which went into its
own op, `ValuesOp.missing` stands in its place; in ops built by hand it can stand anywhere.

`F` is the type of the bodies of builtin functions.
-/
import ShellOps.Failure
import ShellOps.Scope

namespace ShellOps

/-- A builtin as it was registered: its name and its body. Every registration has a number of its
own, so two builtins are one and the same exactly when their numbers agree. -/
structure Builtin (β : Type) where
  id : Nat
  name : Name
  body : β

/-- What a descriptor that a form leaves alone becomes. -/
inductive PortPolicy
  | inherit | close
deriving DecidableEq

/-- What a command can be: a function of the script, a special form, a builtin function, a closure
literal, or a program outside. -/
inductive CommandKind
  | userFunction | special | function | closure | external
deriving DecidableEq

mutual

/-- An op that yields a sequence of values; one that is missing yields none. The values of a `var`
that assigns nothing are missing. -/
inductive ValuesOp (F : Type)
  | missing
  | string (text : Bytes) (pos : Pos)
  | variable (name : Name) (pos : Pos)
  | compound (parts : List (ValuesOp F)) (pos : Pos)
  | spaced (items : List (ValuesOp F)) (pos : Pos)
  | subscript (left index : ValuesOp F) (pos : Pos)
  | table (items : ValuesOp F) (keys values : List (ValuesOp F)) (pos : Pos)
  | closure (params : List Name) (captures : CaptureSet) (chunk : ValuesOp F) (pos : Pos)
  | chanCapture (inner : ValuesOp F) (pos : Pos)
  | pipeline (stages : List (Option (FormOp F))) (pos : Pos)
  | chunk (pipelines : List (ValuesOp F)) (pos : Pos)
  | var (names : List Name) (values : ValuesOp F) (pos : Pos)
  | set (names : List Name) (values : ValuesOp F) (pos : Pos)
  | del (names : List Name) (pos : Pos)
  | fn (name : Name) (closure : ValuesOp F) (pos : Pos)

/-- An op that runs one stage of a pipeline. The arguments of a special form are missing, since they
went into its op. -/
structure FormOp (F : Type) where
  command : ValuesOp F
  args : ValuesOp F
  ports : List (Option (PortOp F))
  resolution : Resolution F
  unset : PortPolicy
  pos : Pos

/-- An op that opens one descriptor of a stage. -/
inductive PortOp (F : Type)
  | close (pos : Pos)
  | dup (source : Int) (pos : Pos)
  | file (filename : ValuesOp F) (flags : Int32) (mode : UInt32) (pos : Pos)

/-- What the command of a form turned out to be: its kind, the builtin that it names, and the op of
a special form. -/
structure Resolution (F : Type) where
  kind : CommandKind
  function : Option (Builtin F)
  special : Option (Builtin Unit)
  op : ValuesOp F

end

/-- The code of a closure, with the names it takes from around it. -/
structure ClosureBody (F : Type) where
  params : List Name
  captures : CaptureSet
  chunk : ValuesOp F
  pos : Pos

/-! ### Kinds and places -/

/-- The names of the kinds of op, in the order of their numbers. -/
def opKindNames : List String :=
  ["string", "variable", "compound", "spaced", "subscript", "table", "closure", "chan-capture",
    "pipeline", "chunk", "special", "form", "close-port", "dup-port", "file-port"]

namespace CommandKind

/-- The kinds of command, in the order of their numbers. -/
def all : List CommandKind := [userFunction, special, function, closure, external]

def name : CommandKind → String
  | userFunction => "user-function"
  | special => "builtin-special"
  | function => "builtin-function"
  | closure => "closure"
  | external => "external"

def ofName? (s : String) : Option CommandKind := all.find? (·.name = s)

end CommandKind

namespace ValuesOp

variable {F : Type}

def pos : ValuesOp F → Pos
  | .missing => 0
  | .string _ p | .variable _ p | .compound _ p | .spaced _ p | .subscript _ _ p | .table _ _ _ p
  | .closure _ _ _ p | .chanCapture _ p | .pipeline _ p | .chunk _ p | .var _ _ p | .set _ _ p
  | .del _ p | .fn _ _ p => p

def kindName : ValuesOp F → String
  | .missing => "missing"
  | .string .. => "string"
  | .variable .. => "variable"
  | .compound .. => "compound"
  | .spaced .. => "spaced"
  | .subscript .. => "subscript"
  | .table .. => "table"
  | .closure .. => "closure"
  | .chanCapture .. => "chan-capture"
  | .pipeline .. => "pipeline"
  | .chunk .. => "chunk"
  | .var .. | .set .. | .del .. | .fn .. => "special"

/-- The binding form an op was compiled from. -/
def bindingForm? : ValuesOp F → Option BindingForm
  | .var .. => some .var
  | .set .. => some .set
  | .del .. => some .del
  | .fn .. => some .fn
  | _ => none

/-! ### Building ops -/

/-- The op of a word; a word of one part is that part. -/
def word (parts : List (ValuesOp F)) (pos : Pos) : ValuesOp F :=
  match parts with
  | [part] => part
  | _ => .compound parts pos

/-- The op of a part; without an index it is its left side. -/
def indexed (left index : ValuesOp F) (pos : Pos) : ValuesOp F :=
  match index with
  | .missing => left
  | _ => .subscript left index pos

/-- The op that yields what `inner` writes, at the place of `inner`. -/
def capture (inner : ValuesOp F) : ValuesOp F := .chanCapture inner inner.pos

/-- The op of a table, which has as many keys as values. -/
def table? (items : ValuesOp F) (keys values : List (ValuesOp F)) (pos : Pos) :
    Except Malformed (ValuesOp F) :=
  if keys.length = values.length then .ok (.table items keys values pos) else .error .tableLengths

/-- The op of a closure literal whose code is the given pipelines. -/
def closureOf (params : List Name) (pipelines : List (ValuesOp F)) (captures : CaptureSet)
    (pos : Pos) : ValuesOp F :=
  .closure params captures (.chunk pipelines pos) pos

@[simp] theorem word_singleton (part : ValuesOp F) (pos : Pos) : word [part] pos = part := rfl

@[simp] theorem pos_capture (inner : ValuesOp F) : inner.capture.pos = inner.pos := rfl

end ValuesOp

namespace Resolution

variable {F : Type}

/-- A command that names no builtin. -/
def bare (kind : CommandKind) : Resolution F :=
  { kind, function := none, special := none, op := .missing }

/-- A builtin function. -/
def ofFunction (entry : Builtin F) : Resolution F :=
  { kind := .function, function := some entry, special := none, op := .missing }

/-- A special form with its op. -/
def ofSpecial (entry : Builtin Unit) (op : ValuesOp F) : Resolution F :=
  { kind := .special, function := none, special := some entry, op }

end Resolution

def PortOp.pos {F : Type} : PortOp F → Pos
  | .close p | .dup _ p | .file _ _ _ p => p

def PortOp.kindName {F : Type} : PortOp F → String
  | .close .. => "close-port"
  | .dup .. => "dup-port"
  | .file .. => "file-port"

end ShellOps
