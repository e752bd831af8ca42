/-
# The values of the machine

Texts of every kind, tables, and closures. Variables and channels are known by their numbers.
-/
import ShellOps.Evaluator

namespace ShellOps.Machine

/-- The body of a builtin function: it does what the command of a name does, or gives one status. -/
inductive Function
  | command (name : Name)
  | status (text : Bytes)
deriving DecidableEq

/-- A value. A text can be of any kind; of kind `closure` it is still no closure. A closure comes
with the numbers of the variables it captured. -/
inductive Value
  | text (kind : Ty) (text : Bytes)
  | table (items : List Value) (pairs : List (Value × Value))
  | closure (body : ClosureBody Function) (captured : List (Name × Nat))

namespace Value

def kind : Value → Ty
  | .text k _ => k
  | .table .. => .table
  | .closure .. => .closure

def toText : Value → Bytes
  | .text _ t => t
  | .table .. => utf8 "<table>"
  | .closure .. => utf8 "<closure>"

/-- A text of kind `string`. -/
def string (t : Bytes) : Value := .text .string t

/-- A status. -/
def status (t : Bytes) : Value := .text .status t

end Value

end ShellOps.Machine
