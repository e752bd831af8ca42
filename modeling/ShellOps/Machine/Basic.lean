/-
# A machine that runs ops

An evaluator that logs every operation. Values are texts, tables and closures; commands are a few
that write, fail or call, and every other one does nothing and succeeds. Calls may nest forty deep.
What a call, a capture or a pipeline changes for its duration (the ports, the frame, the input and
the output) is put back at its end, also after a failure.
-/
import ShellOps.Eval
import ShellOps.Machine.State

namespace ShellOps.Machine

/-! ### Faults -/

/-- Why an operation of the machine fails. -/
inductive Fault
  | outOfChannels
  | cannotConcatenate (left right : Ty)
  | cannotIndex (kind : Ty)
  | indexOutOfRange (key : Bytes)
  | noSuchKey (key : Bytes)
  | callDepth
  | functionNotFound (name : Name)
  | notCallable (kind : Ty)
  | arityMismatch (want got : Nat)
  | thrown
deriving DecidableEq

def Fault.message : Fault → Bytes
  | outOfChannels => utf8 "out of channels"
  | cannotConcatenate l r =>
    utf8 "cannot concatenate " ++ utf8 l.name ++ utf8 " and " ++ utf8 r.name
  | cannotIndex k => utf8 "cannot index " ++ utf8 k.name
  | indexOutOfRange key => utf8 "index out of range: " ++ key
  | noSuchKey key => utf8 "no such key: " ++ key
  | callDepth => utf8 "call depth exceeded"
  | functionNotFound n => utf8 "function not found: " ++ n
  | notCallable k => utf8 "not callable: " ++ utf8 k.name
  | arityMismatch want got =>
    utf8 "arity mismatch: want " ++ decimal want ++ utf8 ", got " ++ decimal got
  | thrown => utf8 "thrown by throw"

/-- Fails with a fault of the machine. -/
def raise {α : Type} (pos : Pos) (f : Fault) : Run world α := fail pos (.raised f.message)

/-! ### Steps -/

/-- Logs an operation. -/
def record (e : Event) : Run world Unit := modify (·.record e)

/-- Runs a step and then, whether it failed or not, cleans up. -/
def ensuring {α : Type} (body : Run world α) (cleanup : State → State) : Run world α := fun s =>
  match body s with
  | (r, s') => (r, cleanup s')

/-- Runs a step with an empty output; gives its result and what it wrote, and puts the output
back. -/
def withFreshOutput {α : Type} (body : Run world α) : Run world (α × List Value) := fun s =>
  match body { s with output := [] } with
  | (.ok a, s') => (.ok (a, s'.output), { s' with output := s.output })
  | (.error e, s') => (.error e, { s' with output := s.output })

/-- Runs the stages of a pipeline in order. What a stage writes is the input of the next; the last
one writes to the output around the pipeline. -/
def runStages : List (Run world (List Value)) → Run world (List Value)
  | [] => pure []
  | [last] => last
  | stage :: rest => do
    let (statuses, written) ← withFreshOutput stage
    modify fun s => { s with input := written }
    return statuses ++ (← runStages rest)

/-! ### Values -/

/-- Whether values of a kind can be joined to others. -/
def joins (k : Ty) : Bool := k ≠ .table && k ≠ .closure

def concat (l r : Value) (pos : Pos) : Run world Value := do
  record (.concat l.toText r.toText pos)
  if joins l.kind && joins r.kind then return .string (l.toText ++ r.toText)
  else raise pos (.cannotConcatenate l.kind r.kind)

/-- The number written by one to six decimal digits. -/
def itemNumber? (key : Bytes) : Option Nat :=
  if 1 ≤ key.length ∧ key.length ≤ 6 ∧ key.all (fun c => 48 ≤ c && c ≤ 57) then
    some (key.foldl (fun n c => 10 * n + (c.toNat - 48)) 0)
  else none

/-- The value of the last pair of a table with a key. -/
def lastPair? (pairs : List (Value × Value)) (key : Bytes) : Option Value :=
  (pairs.reverse.find? fun (k, _) => k.toText = key).map (·.2)

def index (container key : Value) (pos : Pos) : Run world (List Value) := do
  record (.index container.toText key.toText pos)
  match container with
  | .table items pairs =>
    if key.toText = utf8 "*" then return items
    match itemNumber? key.toText with
    | some i =>
      match items[i]? with
      | some v => return [v]
      | none => raise pos (.indexOutOfRange key.toText)
    | none =>
      match lastPair? pairs key.toText with
      | some v => return [v]
      | none => raise pos (.noSuchKey key.toText)
  | other => raise pos (.cannotIndex other.kind)

/-! ### Commands -/

/-- The pieces of a text between commas; a comma at the end starts no piece. -/
def commaPieces (t : Bytes) : List Bytes :=
  match (splitOnByte 44 t).reverse with
  | [] :: rest => rest.reverse
  | pieces => pieces.reverse

/-- Calls a closure: its code runs in a frame of the captured variables and the parameters. -/
def callClosure (ev : Evaluator world Function) (callee : Value) (args : List Value) (pos : Pos) :
    Run world (List Value) :=
  match callee with
  | .closure body captured => do
    if args.length ≠ body.params.length then
      raise pos (.arityMismatch body.params.length args.length)
    let outer := (← get).frame
    modify fun s =>
      let inner := { s with frame := .ofList captured }
      (body.params.zip args).foldl (fun s (n, v) => s.bindNew n v) inner
    ensuring (body.chunk.eval ev) fun s => { s with frame := outer }
  | other => raise pos (.notCallable other.kind)

/-- Writes a line: to the file that descriptor 1 stands for, or else to the output. Gives the
status. -/
def echo (line : Bytes) : Run world Value := do
  let s ← get
  match s.outputFile? with
  | some fd =>
    match s.writeLine? fd line with
    | some s => set s; return .status (utf8 "0")
    | none => return .status (utf8 "1")
  | none =>
    modify (·.emit [.string line])
    return .status (utf8 "0")

/-- What the command of a name does. -/
def behave (ev : Evaluator world Function) (name : Name) (args : List Value) :
    Run world (List Value) :=
  let ok : Value := .status (utf8 "0")
  if name = utf8 "put" then do
    modify (·.emit args)
    return []
  else if name = utf8 "echo" then do
    return [← echo (joinWith (utf8 " ") (args.map (·.toText)))]
  else if name = utf8 "@" then do
    modify (·.emit ((args.flatMap fun v => commaPieces v.toText).map .string))
    return [ok]
  else if name = utf8 "cat" then do
    modify fun s => s.emit s.input
    return [ok]
  else if name = utf8 "false" then return [.status (utf8 "1")]
  else if name = utf8 "none" then return []
  else if name = utf8 "each" then return args.map fun v => .status v.toText
  else if name = utf8 "throw" then raise args.length .thrown
  else if name = utf8 "call" then
    match args with
    | [] => return [.status (utf8 "2")]
    | callee :: rest => callClosure ev callee rest 0
  else return [ok]

/-- Runs a builtin function. -/
def runFunction (ev : Evaluator world Function) (f : Function) (args : List Value) :
    Run world (List Value) :=
  match f with
  | .command name => do
    record (.function name)
    behave ev name args
  | .status text => return [.status text]

/-- The text of the first value of a command. -/
def commandText (command : List Value) : Bytes := (command.head?.map (·.toText)).getD []

/-- Runs a command, once its ports are in force. -/
def runCommand (ev : Evaluator world Function) (c : CommandCall world Function) :
    Run world (List Value) :=
  match c.resolution.kind with
  | .special => c.resolution.op.eval ev
  | .function =>
    match c.resolution.function with
    | some entry => runFunction ev entry.body c.args
    | none => return []
  | .userFunction => do
    let name := commandText c.command
    match ← ev.lookup (functionName name) with
    | some id => callClosure ev (← ev.get id) c.args c.pos
    | none => raise c.pos (.functionNotFound name)
  | .closure =>
    match c.command with
    | callee :: _ => callClosure ev callee c.args c.pos
    | [] => raise c.pos (.notCallable .any)
  | .external => behave ev (commandText c.command) c.args

/-! ### The evaluator -/

/-- The operations of the machine, given what a command does once its ports are in force. -/
def operations (run : CommandCall world Function → Run world (List Value)) :
    Evaluator world Function where
  typeOf := Value.kind
  textOf := Value.toText
  makeString t := do
    record (.string t)
    return .string t
  makeTable items pairs := do
    record (.table (.table items pairs))
    return .table items pairs
  makeClosure body captured := do
    record (.closure (.closure body captured))
    return .closure body captured
  makeChannel := do
    let s ← get
    if s.channelLimit.any (· ≤ s.channels) then raise 0 .outOfChannels
    modify fun s => { s.record (.channel s.channels) with channels := s.channels + 1 }
    return s.channels
  concat := concat
  index := index
  lookup n := do
    let id := (← get).frame[n]?
    record (.lookup n id)
    return id
  get id := do
    record (.get id)
    return (← get).valueOf id
  set id v := do
    record (.set id v)
    modify fun s => { s with store := s.store.setIfInBounds id v }
  define n v := do
    record (.define n (← get).store.size v)
    modify (·.bindNew n v)
  remove n := do
    record (.remove n)
    modify fun s => { s with frame := s.frame.erase n }
  port fd := do
    let p := (← get).ports[fd]?
    record (.port fd p.isSome)
    return p
  openFile path flags mode := modifyGet (·.openFile path flags mode)
  closeFile fd := modify (·.closeFile fd)
  closeChannel c := modify (·.closeChannel c)
  call c := do
    let s ← get
    record (.call c.resolution.kind.name c.command c.args c.pos (c.ports.map s.viewPort))
    modify fun s => { s with ports := State.install s.ports 0 c.ports }
    ensuring (run c) fun s' => c.ports.foldl State.closePort { s' with ports := s.ports }
  runPipeline stages pos := do
    record (.pipeline stages.length pos)
    let input := (← get).input
    ensuring (runStages (stages.map (·.run))) fun s => { s with input }
  captureOutput op run := do
    record (.capture op.kindName op.pos)
    return (← withFreshOutput run).2

/-- The machine with so many nested calls left. -/
def evaluator : Nat → Evaluator world Function
  | 0 => operations fun c => raise c.pos .callDepth
  | n + 1 => operations (runCommand (evaluator n))

/-- How deep calls may nest. -/
def maxCallDepth : Nat := 40

/-- The machine at its start. -/
def top : Evaluator world Function := evaluator maxCallDepth

end ShellOps.Machine
