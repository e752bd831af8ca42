/-
# Running ops

An op runs by recursion on its tree. The children of an op are first mapped to the steps that run
them, and those are then put in sequence: a word joins every choice of one value from each part,
the leftmost part varying slowest; a form runs its command, then its arguments, then opens its
ports, and only then calls the command.
-/
import ShellOps.Evaluator

namespace ShellOps

variable {w : World} {F : Type}

/-! ### Steps in sequence -/

/-- The one value of a list, which must have one. -/
def single (use : SingleUse) (pos : Pos) : List w.Value → Run w w.Value
  | [v] => pure v
  | vs => fail pos (.notSingle use vs.length)

/-- Joins every value of `lefts` with every value of `rights`, the left one varying slowest. -/
def concatAll (ev : Evaluator w F) (lefts rights : List w.Value) (pos : Pos) :
    Run w (List w.Value) :=
  (lefts.flatMap fun l => rights.map fun r => (l, r)).mapM fun (l, r) => ev.concat l r pos

/-- Joins the values so far with those of each further part, from left to right. A part comes with
its place. -/
def productFrom (ev : Evaluator w F) :
    List w.Value → List (Pos × Run w (List w.Value)) → Run w (List w.Value)
  | acc, [] => pure acc
  | acc, (pos, part) :: rest => do
    let values ← part
    productFrom ev (← concatAll ev acc values pos) rest

/-- The values of a word with the given parts. -/
def product (ev : Evaluator w F) : List (Pos × Run w (List w.Value)) → Run w (List w.Value)
  | [] => pure []
  | (_, first) :: rest => do productFrom ev (← first) rest

/-- The values of each step, one after the other. -/
def sequence : List (Pos × Run w (List w.Value)) → Run w (List w.Value)
  | [] => pure []
  | (_, step) :: rest => do
    let values ← step
    return values ++ (← sequence rest)

/-- The values of the last step; the others run for what they do. -/
def lastOf : List w.Value → List (Pos × Run w (List w.Value)) → Run w (List w.Value)
  | last, [] => pure last
  | _, (_, step) :: rest => do lastOf (← step) rest

/-- The values at each of some keys of a container, one after the other. -/
def indexAll (ev : Evaluator w F) (container : w.Value) (pos : Pos) :
    List w.Value → Run w (List w.Value)
  | [] => pure []
  | key :: keys => do
    let values ← ev.index container key pos
    return values ++ (← indexAll ev container pos keys)

/-- The pairs of a table: for each, the key runs and then the value, and both must be single. -/
def pairUp : List (Pos × Run w (List w.Value)) → List (Pos × Run w (List w.Value)) →
    Run w (List (w.Value × w.Value))
  | (keyPos, key) :: keys, (valuePos, value) :: values => do
    let ks ← key
    let vs ← value
    let k ← single .tableKey keyPos ks
    let v ← single .tableValue valuePos vs
    return (k, v) :: (← pairUp keys values)
  | _, _ => pure []

/-- The variables that now have the captured names, in the order of the names. -/
def captureVariables (ev : Evaluator w F) (pos : Pos) : List Name → Run w (List (Name × w.Variable))
  | [] => pure []
  | n :: ns => do
    match ← ev.lookup n with
    | some v => return (n, v) :: (← captureVariables ev pos ns)
    | none => fail pos (.capturedNotFound n)

/-! ### Names -/

/-- Defines each name as an empty text. -/
def defineEmpty (ev : Evaluator w F) : List Name → Run w Unit
  | [] => pure ()
  | n :: ns => do
    ev.define n (← ev.makeString [])
    defineEmpty ev ns

/-- Defines each name as the value that goes with it. -/
def defineAll (ev : Evaluator w F) : List (Name × w.Value) → Run w Unit
  | [] => pure ()
  | (n, v) :: rest => do
    ev.define n v
    defineAll ev rest

/-- Gives each name the value that goes with it, looking the name up just before. -/
def assignAll (ev : Evaluator w F) (pos : Pos) : List (Name × w.Value) → Run w Unit
  | [] => pure ()
  | (n, v) :: rest => do
    match ← ev.lookup n with
    | some x => ev.set x v
    | none => fail pos (.variableNotFound n)
    assignAll ev pos rest

/-- Each name with its value, if there are as many values as names. -/
def matchNames (form : BindingForm) (pos : Pos) (names : List Name) (values : List w.Value) :
    Run w (List (Name × w.Value)) :=
  if values.length = names.length then pure (names.zip values)
  else fail pos (.countMismatch form names.length values.length)

/-! ### Ports -/

/-- The flag that keeps a file from the programs that a command starts. -/
def closeOnExec : Int32 := 0o2000000

/-- The port of a file. The channel is made first, so that nothing can fail once the file is
open. -/
def attachFile (ev : Evaluator w F) (filename : Pos × Run w (List w.Value)) (flags : Int32)
    (mode : UInt32) (pos : Pos) : Run w (Port w.Channel) := do
  let name ← single .filename filename.1 (← filename.2)
  if ev.typeOf name ≠ .string then fail filename.1 (.filenameKind (ev.typeOf name))
  let path := ev.textOf name
  let channel ← ev.makeChannel
  match ← ev.openFile (untilNul path) (flags ||| closeOnExec) mode with
  | .ok fd => return { fd, channel := some channel, closeFile := true, closeChannel := true }
  | .error reason => fail pos (.openFailed path reason)

/-- The port of a copied descriptor. -/
def attachCopy (ev : Evaluator w F) (source : Int) (pos : Pos) : Run w (Port w.Channel) := do
  match ← ev.port source with
  | some p => return p.share
  | none => fail pos (.badDescriptor source)

/-- The port of a descriptor that the form leaves alone. -/
def attachUnset (ev : Evaluator w F) (unset : PortPolicy) (fd : Nat) : Run w (Port w.Channel) :=
  match unset with
  | .close => pure .empty
  | .inherit => do
    match ← ev.port fd with
    | some p => return p.share
    | none => return .empty

/-- Opens the slots of a port table from descriptor `fd` on, in order. -/
def attachAll (ev : Evaluator w F) (unset : PortPolicy) :
    Nat → List (Option (Run w (Port w.Channel))) → Run w (List (Port w.Channel))
  | _, [] => pure []
  | fd, slot :: rest => do
    let p ← slot.getD (attachUnset ev unset fd)
    return p :: (← attachAll ev unset (fd + 1) rest)

/-! ### Ops -/

mutual

/-- Runs an op and gives its values. -/
def ValuesOp.eval (ev : Evaluator w F) : ValuesOp F → Run w (List w.Value)
  | .missing => pure []
  | .string text _ => do return [← ev.makeString text]
  | .variable name pos => do
    match ← ev.lookup name with
    | some v => return [← ev.get v]
    | none => fail pos (.variableNotFound name)
  | .compound parts _ => product ev (evalSteps ev parts)
  | .spaced items _ => sequence (evalSteps ev items)
  | .subscript left index _ => do
    let container ← single .subscripted left.pos (← left.eval ev)
    indexAll ev container index.pos (← index.eval ev)
  | .table items keys values _ => do
    let list ← items.eval ev
    let pairs ← pairUp (evalSteps ev keys) (evalSteps ev values)
    return [← ev.makeTable list pairs]
  | .closure params captures chunk pos => do
    let captured ← captureVariables ev pos captures.keys
    return [← ev.makeClosure ⟨params, captures, chunk, pos⟩ captured]
  | .chanCapture inner _ => ev.captureOutput inner (inner.eval ev)
  | .pipeline stages pos => ev.runPipeline (execSteps ev stages) pos
  | .chunk pipelines _ => lastOf [] (evalSteps ev pipelines)
  | .var names .missing _ => do
    defineEmpty ev names
    return []
  | .var names values pos => do
    defineAll ev (← matchNames .var pos names (← values.eval ev))
    return []
  | .set names values pos => do
    assignAll ev pos (← matchNames .set pos names (← values.eval ev))
    return []
  | .del names _ => do
    names.forM ev.remove
    return []
  | .fn name closure pos => do
    match ← closure.eval ev with
    | [v] =>
      ev.define (functionName name) v
      return []
    | vs => fail pos (.functionValues vs.length)

/-- Each op as the step that runs it, with its place. -/
def evalSteps (ev : Evaluator w F) : List (ValuesOp F) → List (Pos × Run w (List w.Value))
  | [] => []
  | op :: ops => (op.pos, op.eval ev) :: evalSteps ev ops

/-- Runs a form: its command, its arguments, its ports, the call. -/
def FormOp.exec (ev : Evaluator w F) : FormOp F → Run w (List w.Value)
  | ⟨command, args, ports, resolution, unset, pos⟩ => do
    let commandValues ← command.eval ev
    let argValues ← args.eval ev
    let opened ← attachAll ev unset 0 (attachSteps ev ports)
    ev.call
      { resolution, special := specialStep ev resolution, command := commandValues,
        args := argValues, ports := opened, pos }

/-- Each form as a stage of a pipeline. -/
def execSteps (ev : Evaluator w F) : List (Option (FormOp F)) → List (Stage w F)
  | [] => []
  | f :: fs => execStep ev f :: execSteps ev fs

/-- A form as a stage of a pipeline; one that is missing does nothing. -/
def execStep (ev : Evaluator w F) : Option (FormOp F) → Stage w F
  | none => ⟨none, pure []⟩
  | some f => ⟨some f, f.exec ev⟩

/-- The step that runs the op of a special form. -/
def specialStep (ev : Evaluator w F) : Resolution F → Option (Run w (List w.Value))
  | ⟨.special, _, _, op⟩ => some (op.eval ev)
  | _ => none

/-- Opens a port. -/
def PortOp.attach (ev : Evaluator w F) : PortOp F → Run w (Port w.Channel)
  | .close _ => pure .empty
  | .dup source pos => attachCopy ev source pos
  | .file filename flags mode pos =>
    attachFile ev (filename.pos, filename.eval ev) flags mode pos

/-- Each configured slot of a port table as the step that opens it. -/
def attachSteps (ev : Evaluator w F) :
    List (Option (PortOp F)) → List (Option (Run w (Port w.Channel)))
  | [] => []
  | slot :: rest => attachStep ev slot :: attachSteps ev rest

/-- A configured slot as the step that opens it. -/
def attachStep (ev : Evaluator w F) : Option (PortOp F) → Option (Run w (Port w.Channel))
  | none => none
  | some op => some (op.attach ev)

end

/-- Opens every slot of the port table of a form. -/
def FormOp.openPorts (ev : Evaluator w F) (f : FormOp F) : Run w (List (Port w.Channel)) :=
  attachAll ev f.unset 0 (attachSteps ev f.ports)

end ShellOps
