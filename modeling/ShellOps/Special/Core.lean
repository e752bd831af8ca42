/-
# The special forms that bind names

`var NAME... [= WORD...]` binds names, `set NAME... = WORD...` assigns to names that are bound,
`del NAME...` takes names out of the innermost frame, and `fn NAME CLOSURE` binds a function. The
words of `var` see the bindings from before the form; the closure of `fn` sees the new one, so that
a function can call itself.
-/
import ShellOps.Registry

namespace ShellOps

variable {F : Type}

/-- The word that ends the names of an assignment. -/
def equals : Bytes := utf8 "="

/-- The name that a word gives: any text but the empty one and `=`. -/
def mustName (form : BindingForm) (w : Word) : CompileM Name :=
  match w.plain? with
  | some text =>
    if text = [] ∨ text = equals then CompileM.reject w.pos (.expectedName form) else pure text
  | none => CompileM.reject w.pos (.expectedName form)

/-- Reads names up to a word `=` or the end, doing `check` with each. Gives the names and, if there
is a `=`, its place and the arguments after it. -/
def scanNames (form : BindingForm) (check : Name → Pos → CompileM Unit) :
    List (Argument F) → CompileM (List Name × Option (Pos × List (Argument F)))
  | [] => pure ([], none)
  | a :: rest => do
    let w ← a.must
    if w.plain? = some equals then
      return ([], some (w.pos, rest))
    let name ← mustName form w
    check name w.pos
    let (names, values) ← scanNames form check rest
    return (name :: names, values)

/-- The form `var`. Its names are bound last. -/
def compileVar : SpecialForm F := fun call => do
  let (names, values) ← scanNames .var (fun _ _ => pure ()) call.args
  if names.isEmpty then CompileM.reject call.pos (.noNames .var)
  let valuesOp ← match values with
    | some (pos, args) => compileArguments args pos
    | none => pure .missing
  names.forM (CompileM.bind · .any)
  return some (.var names valuesOp call.pos)

/-- The form `set`. Its names are looked up one by one as they are read. -/
def compileSet : SpecialForm F := fun call => do
  let (names, values) ← scanNames .set (fun n pos => discard (CompileM.mustResolve n pos)) call.args
  if names.isEmpty then CompileM.reject call.pos (.noNames .set)
  match values with
  | some (pos, args) => return some (.set names (← compileArguments args pos) call.pos)
  | none => CompileM.reject call.pos .missingEquals

/-- Takes the names given by `args` out of the innermost frame, one by one. -/
def unbindNames : List (Argument F) → CompileM (List Name)
  | [] => pure []
  | a :: rest => do
    let w ← a.must
    let name ← mustName .del w
    if !(← CompileM.hasLocal name) then CompileM.reject w.pos (.notLocal name)
    CompileM.unbind name
    return name :: (← unbindNames rest)

/-- The form `del`. -/
def compileDel : SpecialForm F := fun call => do
  let names ← unbindNames call.args
  if names.isEmpty then CompileM.reject call.pos (.noNames .del)
  return some (.del names call.pos)

/-- The form `fn`. The name of the function is bound before its closure is compiled. -/
def compileFn : SpecialForm F := fun call =>
  match call.args with
  | [nameArg, bodyArg] => do
    let name ← mustName .fn (← nameArg.must)
    let body ← bodyArg.must
    match body.sole?, bodyArg.closure with
    | some (.closure ..), some step =>
      CompileM.bind (functionName name) .closure
      return some (.fn name (← forwarding step) call.pos)
    | some (.closure ..), none => CompileM.malformed .missingClosure
    | _, _ => CompileM.reject body.pos .badFunctionBody
  | _ => CompileM.reject call.pos .badFunction

/-- The special form that compiles a binding form. -/
def BindingForm.compile : BindingForm → SpecialForm F
  | var => compileVar
  | set => compileSet
  | del => compileDel
  | fn => compileFn

/-- Adds the four binding forms. -/
def Registry.registerCore (r : Registry F) : Registry F :=
  [BindingForm.var, .set, .del, .fn].foldl (fun r f => r.registerSpecial (utf8 f.name) f.compile) r

end ShellOps
