/-
# The kinds of value

The compiler knows of a variable which kind of value it holds, and compares kinds; it asks nothing
else of a value.
-/
namespace ShellOps

/-- The kind of value that a variable is known to hold; `any` when nothing is known. -/
inductive Ty
  | any | string | number | bool | list | table | closure | channel | status
deriving DecidableEq, Inhabited

namespace Ty

/-- Every kind, in the order of their numbers. -/
def all : List Ty := [any, string, number, bool, list, table, closure, channel, status]

def name : Ty → String
  | any => "any"
  | string => "string"
  | number => "number"
  | bool => "bool"
  | list => "list"
  | table => "table"
  | closure => "closure"
  | channel => "channel"
  | status => "status"

def ofName? (s : String) : Option Ty := all.find? (·.name = s)

def isClosure (t : Ty) : Bool := t = closure

theorem mem_all (t : Ty) : t ∈ all := by cases t <;> decide

theorem ofName?_name (t : Ty) : ofName? t.name = some t := by cases t <;> decide

end Ty

/-- The entry of a list of names with number `i`, and `unknown` past the end. -/
def nameAt (names : List String) (i : Nat) : String := names[i]?.getD "unknown"

end ShellOps
