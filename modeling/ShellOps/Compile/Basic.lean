/-
# Compiling a script to ops

One function for each kind of node, all of them by recursion on the tree. In a form the command
comes first, then the redirections in the order they are written, then the arguments, or the op of
the special form. Pipelines, forms, words, primaries and closures count towards the nesting depth.
-/
import ShellOps.Registry

namespace ShellOps

variable {F : Type}

/-- What stays the same while a script is compiled. -/
structure Env (F : Type) where
  registry : Registry F
  options : Options
  source : Source

/-- What a command word names: a special form, which still has to compile the form it heads, or a
command whose resolution is settled. -/
inductive Command (F : Type)
  | special (entry : Builtin (SpecialForm F))
  | plain (resolution : Resolution F)

/-- What the command `n` is: a function of the script comes first, then a special form, then a
builtin function. The name of the function counts as looked up in each case. -/
def resolveCommand (r : Registry F) (n : Name) : CompileM (Command F) := do
  if (← CompileM.resolve (functionName n)) = some .closure then
    return .plain (.bare .userFunction)
  match r.findSpecial n with
  | some entry => return .special entry
  | none =>
    match r.findFunction n with
    | some entry => return .plain (.ofFunction entry)
    | none => return .plain (.bare .external)

/-! ### Steps that do not look into the tree -/

/-- Stops if a descriptor is over the limit. -/
def checkDescriptor (o : Options) (fd : Int) (pos : Pos) : CompileM Unit :=
  if o.maxFd < fd then CompileM.reject pos (.descriptorTooLarge fd o.maxFd) else pure ()

/-- Stops at the first redirection of a descriptor that is negative or over the limit. -/
def checkRedirections (o : Options) : List Redirection → CompileM Unit
  | [] => pure ()
  | r :: rs => do
    if r.fd < 0 then CompileM.malformed (.negativeDescriptor r.fd)
    checkDescriptor o r.fd r.pos
    checkRedirections o rs

/-- The number of slots that the redirections of a form need. -/
def portCount (rs : List Redirection) : Nat := (rs.map (·.fd.toNat + 1)).foldl max 0

/-- The op and the meaning of the command word at `pos`, whose one primary is `head`. -/
def commandHead (env : Env F) (pos : Pos) (head : Primary) (compile : CompileM (ValuesOp F)) :
    CompileM (ValuesOp F × Command F) :=
  match head with
  | .string _ text => do
    let op ← compile
    return (op, ← resolveCommand env.registry text)
  | .closure .. => do return (← compile, .plain (.bare .closure))
  | _ => CompileM.reject pos .badCommand

/-- The op of a word at `pos`: `op` itself, or what the command named by the sigil writes when
`op` is its argument. -/
def applySigil (env : Env F) (pos : Pos) (sigil : Option UInt8) (op : ValuesOp F) :
    CompileM (ValuesOp F) :=
  match sigil with
  | none => pure op
  | some s => do
    CompileM.count fun c => { c with sigils := c.sigils + 1 }
    match ← resolveCommand env.registry [s] with
    | .special _ => CompileM.reject pos (.sigilNamesSpecial s)
    | .plain resolution =>
      let stage : FormOp F :=
        { command := .string [s] pos, args := op, ports := [], resolution,
          unset := env.options.unsetPorts, pos }
      return (ValuesOp.pipeline [some stage] pos).capture

/-- The arguments of a form and the resolution of its command; a special form takes its arguments
into its op. -/
def finishCommand (command : Command F) (call : SpecialCall F) :
    CompileM (ValuesOp F × Resolution F) :=
  match command with
  | .special entry => do
    match ← entry.body call with
    | some op =>
      return (.missing, .ofSpecial { id := entry.id, name := entry.name, body := () } op)
    | none => CompileM.malformed (.noSpecialOp entry.name)
  | .plain resolution => do return (← compileArguments call.args call.argsPos, resolution)

/-- The op of a closure literal at `pos` whose pipelines are compiled by `body`. -/
def closureAround (o : Options) (pos : Pos) (params : List Name)
    (body : CompileM (List (ValuesOp F))) : CompileM (CompiledClosure F) :=
  CompileM.nested o pos do
    let outer ← CompileM.enterClosure params
    let pipelines ← body
    let captures ← CompileM.leaveClosure outer
    return ⟨.closureOf params pipelines captures pos, captures⟩

/-! ### The nodes of the tree -/

mutual

/-- The op of a chunk. -/
def compileChunk (env : Env F) : Chunk → CompileM (ValuesOp F)
  | ⟨pos, pipelines⟩ => do return .chunk (← compilePipelines env pipelines) pos

/-- The ops of the pipelines of a chunk, in order. -/
def compilePipelines (env : Env F) : List Pipeline → CompileM (List (ValuesOp F))
  | [] => pure []
  | p :: ps => do
    let op ← compilePipeline env p
    return op :: (← compilePipelines env ps)

/-- The op of a closure literal and its captures, which are not passed on. -/
def compileClosure (env : Env F) : Closure → CompileM (CompiledClosure F)
  | ⟨pos, params, ⟨_, pipelines⟩⟩ =>
    closureAround env.options pos params (compilePipelines env pipelines)

/-- The op of a pipeline. -/
def compilePipeline (env : Env F) : Pipeline → CompileM (ValuesOp F)
  | ⟨pos, forms⟩ => CompileM.nested env.options pos do
    return .pipeline ((← compileForms env forms).map some) pos

/-- The ops of the forms of a pipeline, in order. -/
def compileForms (env : Env F) : List Form → CompileM (List (FormOp F))
  | [] => pure []
  | f :: fs => do
    let op ← compileForm env f
    return op :: (← compileForms env fs)

/-- The op of a form. -/
def compileForm (env : Env F) : Form → CompileM (FormOp F)
  | ⟨pos, command, argsPos, args, redirections⟩ => CompileM.nested env.options pos do
    CompileM.count fun c => { c with forms := c.forms + 1 }
    let (commandOp, command) ← compileCommand env command
    checkRedirections env.options redirections
    let ports ← compileRedirections env redirections
      (List.replicate (portCount redirections) none)
    let (args, resolution) ← finishCommand command
      { source := env.source, pos, argsPos, args := compileArgs env args }
    return { command := commandOp, args, ports, resolution, unset := env.options.unsetPorts, pos }

/-- The op and the meaning of a command word, which is one string or one closure literal. -/
def compileCommand (env : Env F) : Option Word → CompileM (ValuesOp F × Command F)
  | none => CompileM.malformed .formWithoutCommand
  | some ⟨pos, none, [⟨_, head, none⟩]⟩ => commandHead env pos head (compilePrimary env head)
  | some ⟨pos, _, _⟩ => CompileM.reject pos .badCommand

/-- The arguments of a form, each with the steps that compile it. -/
def compileArgs (env : Env F) : List (Option Word) → List (Argument F)
  | [] => []
  | arg :: args => compileArg env arg :: compileArgs env args

/-- An argument with the steps that compile it. -/
def compileArg (env : Env F) : Option Word → Argument F
  | none => ⟨none, CompileM.malformed .missingWord, none⟩
  | some w => ⟨some w, compileWord env w, compileLiteral? env w⟩

/-- The step that compiles the closure literal which a word starts with. -/
def compileLiteral? (env : Env F) : Word → Option (CompileM (CompiledClosure F))
  | ⟨_, _, ⟨_, .closure _ (some c), _⟩ :: _⟩ => some (compileClosure env c)
  | _ => none

/-- Puts the op of each redirection into the slot of its descriptor; a later one replaces an
earlier one. -/
def compileRedirections (env : Env F) :
    List Redirection → List (Option (PortOp F)) → CompileM (List (Option (PortOp F)))
  | [], ports => pure ports
  | r :: rs, ports => do
    let op ← compileRedirection env r
    compileRedirections env rs (ports.set r.fd.toNat (some op))

/-- The op of a redirection. -/
def compileRedirection (env : Env F) : Redirection → CompileM (PortOp F)
  | ⟨pos, _, .close⟩ => pure (.close pos)
  | ⟨pos, _, .dup source⟩ => do
    if source < 0 then CompileM.malformed (.negativeSource source)
    checkDescriptor env.options source pos
    return .dup source pos
  | ⟨_, _, .file _ none⟩ => CompileM.malformed .missingFilename
  | ⟨pos, _, .file flags (some filename)⟩ => do
    return .file (← compileWord env filename) flags env.options.fileMode pos
  | ⟨_, _, .unknown⟩ => CompileM.malformed .unknownRedirection

/-- The ops of a list of words, none of which may be missing. -/
def compileWords (env : Env F) : List (Option Word) → CompileM (List (ValuesOp F))
  | [] => pure []
  | none :: _ => CompileM.malformed .missingWord
  | some w :: ws => do
    let op ← compileWord env w
    return op :: (← compileWords env ws)

/-- The op of a word. -/
def compileWord (env : Env F) : Word → CompileM (ValuesOp F)
  | ⟨pos, sigil, parts⟩ => CompileM.nested env.options pos do
    if parts.isEmpty then CompileM.malformed .emptyWord
    let ops ← compileParts env parts
    applySigil env pos sigil (.word ops pos)

/-- The ops of the parts of a word, in order. -/
def compileParts (env : Env F) : List Part → CompileM (List (ValuesOp F))
  | [] => pure []
  | p :: ps => do
    let op ← compilePart env p
    return op :: (← compileParts env ps)

/-- The op of a part of a word. -/
def compilePart (env : Env F) : Part → CompileM (ValuesOp F)
  | ⟨_, left, none⟩ => compilePrimary env left
  | ⟨_, left, some index⟩ => do
    let leftOp ← compilePrimary env left
    let indexOp ← compileWord env index
    return .indexed leftOp indexOp index.pos

/-- The ops of the keys and values of a table literal, key before value. -/
def compilePairs (env : Env F) : List TablePair → CompileM (List (ValuesOp F × ValuesOp F))
  | [] => pure []
  | ⟨some key, some value⟩ :: rest => do
    let keyOp ← compileWord env key
    let valueOp ← compileWord env value
    return (keyOp, valueOp) :: (← compilePairs env rest)
  | _ :: _ => CompileM.malformed .incompletePair

/-- The op of a primary. -/
def compilePrimary (env : Env F) : Primary → CompileM (ValuesOp F)
  | .string pos text => CompileM.nested env.options pos do return .string text pos
  | .variable pos name => CompileM.nested env.options pos do
    let _ ← CompileM.mustResolve name pos
    CompileM.count fun c => { c with references := c.references + 1 }
    return .variable name pos
  | .table pos items pairs => CompileM.nested env.options pos do
    let itemsOp := ValuesOp.spaced (← compileWords env items) pos
    let pairOps ← compilePairs env pairs
    match ValuesOp.table? itemsOp (pairOps.map (·.1)) (pairOps.map (·.2)) pos with
    | .ok op => return op
    | .error cause => CompileM.malformed cause
  | .closure pos none => CompileM.nested env.options pos (CompileM.malformed .missingClosure)
  | .closure pos (some c) => CompileM.nested env.options pos (forwarding (compileClosure env c))
  | .list pos itemsPos items => CompileM.nested env.options pos do
    return .spaced (← compileWords env items) itemsPos
  | .chanCapture pos none => CompileM.nested env.options pos (CompileM.malformed .missingPipeline)
  | .chanCapture pos (some p) => CompileM.nested env.options pos do
    return (← compilePipeline env p).capture
  | .statusCapture pos none => CompileM.nested env.options pos (CompileM.malformed .missingPipeline)
  | .statusCapture pos (some p) => CompileM.nested env.options pos (compilePipeline env p)
  | .unknown pos => CompileM.nested env.options pos (CompileM.malformed .unknownPrimary)

end

/-- The op of a list of words at `pos`. -/
def compileSpaced (env : Env F) (words : List (Option Word)) (pos : Pos) :
    CompileM (ValuesOp F) := do
  return .spaced (← compileWords env words) pos

end ShellOps
