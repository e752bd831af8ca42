/-
# Special forms

A special form compiles its own arguments, in whatever order it likes, and gives the op of the
whole form. It is handed each argument as a word and as the step that compiles it, so it can look
at a word without compiling it.
-/
import ShellOps.Compile.State

namespace ShellOps

variable {F : Type}

/-- The op of a closure literal, and the names it captures. -/
structure CompiledClosure (F : Type) where
  op : ValuesOp F
  captures : CaptureSet

/-- The op of a closure literal, whose captures the code around it takes on. -/
def forwarding (closure : CompileM (CompiledClosure F)) : CompileM (ValuesOp F) := do
  let c ← closure
  CompileM.forwardCaptures c.captures
  return c.op

/-- An argument of a special form: the word, the step that compiles it, and, if its first part is a
closure literal, the step that compiles that literal. -/
structure Argument (F : Type) where
  word : Option Word
  compile : CompileM (ValuesOp F)
  closure : Option (CompileM (CompiledClosure F))

/-- The word of an argument, which may not be missing. -/
def Argument.must (a : Argument F) : CompileM Word :=
  match a.word with
  | some w => pure w
  | none => CompileM.malformed .missingArgument

/-- The op of the arguments, all of them in one list. -/
def compileArguments (args : List (Argument F)) (pos : Pos) : CompileM (ValuesOp F) := do
  return .spaced (← args.mapM (·.compile)) pos

/-- A use of a special form at `pos` of a script. -/
structure SpecialCall (F : Type) where
  source : Source
  pos : Pos
  argsPos : Pos
  args : List (Argument F)

/-- How a special form compiles; it may fail to give an op. -/
abbrev SpecialForm (F : Type) := SpecialCall F → CompileM (Option (ValuesOp F))

end ShellOps
