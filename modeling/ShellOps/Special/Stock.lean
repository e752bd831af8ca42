/-
# Special forms for probing

Small special forms that an embedding program can register next to the binding forms: they give
fixed ops, stop with a message, compile a closure without passing its captures on, or write down
what is in scope.
-/
import ShellOps.Registry

namespace ShellOps

variable {F : Type}

/-- A special form that writes the text `text`. -/
def textForm (text : Bytes) : SpecialForm F := fun call => return some (.string text call.pos)

/-- The stock forms. -/
inductive Stock
  | null | string | args | error | closure | probe
deriving DecidableEq

namespace Stock

def all : List Stock := [null, string, args, error, closure, probe]

def name : Stock → String
  | null => "null"
  | string => "string"
  | args => "args"
  | error => "error"
  | closure => "closure"
  | probe => "probe"

def ofName? (s : String) : Option Stock := all.find? (·.name = s)

/-- The string that an argument starts with. -/
def leadingText (a : Argument F) : Bytes :=
  match a.word with
  | some ⟨_, _, ⟨_, .string _ text, _⟩ :: _⟩ => text
  | _ => []

/-- What is known of a name: whether it is local, and its kind. Looking it up may capture it. -/
def probeName (n : Name) : CompileM Bytes := do
  let isLocal ← CompileM.hasLocal n
  let kind ← CompileM.resolve n
  let place := if isLocal then " local" else " nonlocal"
  let kindName := (kind.map Ty.name).getD "unbound"
  return n ++ utf8 place ++ utf8 " " ++ utf8 kindName ++ utf8 ";"

/-- What is known of the names given as arguments, then the number of frames, then the captures. -/
def probeForm : SpecialForm F := fun call => do
  let names ← call.args.mapM fun a => probeName (leadingText a)
  let s ← get
  let depth := utf8 "depth " ++ decimal s.scopes.depth ++ utf8 ";"
  let captures := s.captures.toList.flatMap fun (n, t) => n ++ utf8 "=" ++ utf8 t.name ++ utf8 ";"
  return some (.string (names.flatten ++ depth ++ captures) call.pos)

/-- The op of the closure literal that is the first argument; its captures are not passed on. -/
def closureForm : SpecialForm F := fun call =>
  match call.args with
  | ⟨_, _, some step⟩ :: _ => do return some (← step).op
  | _ => pure none

/-- How each stock form compiles. -/
def compile : Stock → SpecialForm F
  | null => fun _ => pure none
  | string => textForm (utf8 "special")
  | args => fun call => some <$> compileArguments call.args call.argsPos
  | error => fun call =>
    CompileM.reject call.pos (.custom (utf8 "custom error in " ++ call.source.name))
  | closure => closureForm
  | probe => probeForm

end Stock

end ShellOps
