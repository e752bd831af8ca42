/-
# The state of a compilation

Compiling keeps a scope stack, the set of names captured so far, how deep the nodes being compiled
are nested, and statistics. A failed step leaves the state as it was when the failure arose, except
that the nesting depth is counted back: a closure that was entered and not left stays on the stack.
-/
import ShellOps.Op

namespace ShellOps

/-- What can be chosen about a compilation. A negative `maxDepth` sets no limit. -/
structure Options where
  unsetPorts : PortPolicy := .inherit
  fileMode : UInt32 := 0o644
  maxDepth : Int := 256
  maxFd : Int := 1023
  debug : Bool := false
deriving DecidableEq

/-- Whether nodes nested `n` deep are too deep. -/
def Options.exceeds (o : Options) (n : Nat) : Bool := 0 ≤ o.maxDepth ∧ o.maxDepth < n

/-- What was compiled: forms, closure literals, captured names over all closures, words with a
sigil, references to variables, and the greatest nesting depth. -/
structure Stats where
  forms : Nat := 0
  closures : Nat := 0
  captures : Nat := 0
  sigils : Nat := 0
  references : Nat := 0
  maxDepth : Nat := 0
deriving DecidableEq

/-- The statistics as text, a line for each. -/
def Stats.render (s : Stats) : Bytes :=
  let row (label : String) (n : Nat) : Bytes := utf8 label ++ decimal n ++ [newline]
  utf8 "=== Compile Statistics ===" ++ [newline] ++
    row "Forms:          " s.forms ++
    row "Closures:       " s.closures ++
    row "Captures:       " s.captures ++
    row "Sigil words:    " s.sigils ++
    row "Variable refs:  " s.references ++
    row "Max depth:      " s.maxDepth

/-- What compiling a node reads and changes. -/
structure CompileState where
  scopes : ScopeStack
  captures : CaptureSet := ∅
  depth : Nat := 0
  stats : Stats := {}

/-- The state in which the compilation of a script starts. -/
def CompileState.ofRoot (root : Frame) : CompileState := { scopes := .ofRoot root }

/-- A step of a compilation. Its state outlives a failure. -/
abbrev CompileM := ExceptT Failure (StateM CompileState)

namespace CompileM

variable {α : Type}

@[simp] theorem pure_apply (a : α) (s : CompileState) : (pure a : CompileM α) s = (.ok a, s) := rfl

@[simp] theorem throw_apply (e : Failure) (s : CompileState) :
    (throw e : CompileM α) s = (.error e, s) := rfl

/-- A step after another runs in the state the first leaves, unless the first fails. -/
theorem bind_apply {β : Type} (x : CompileM α) (f : α → CompileM β) (s : CompileState) :
    (x >>= f) s = match x s with
      | (.ok a, s') => f a s'
      | (.error e, s') => (.error e, s') := by
  change ExceptT.bindCont f (x s).1 (x s).2 = _
  rcases x s with ⟨_ | _, _⟩ <;> rfl

/-- Stops with a message for the author of the script. -/
def reject (pos : Pos) (cause : Rejection) : CompileM α := throw (.rejected pos cause)

/-- Stops because the tree is broken. -/
def malformed (cause : Malformed) : CompileM α := throw (.malformed cause)

/-- Counts something. -/
def count (f : Stats → Stats) : CompileM Unit := modify fun s => { s with stats := f s.stats }

/-- Compiles a node at `pos` one level deeper, if the options allow that. The depth is counted back
whether the node compiles or not. -/
def nested (o : Options) (pos : Pos) (body : CompileM α) : CompileM α := fun s =>
  if o.exceeds (s.depth + 1) then (.error (.rejected pos .tooDeep), s)
  else
    let deeper := { s with
      depth := s.depth + 1
      stats := { s.stats with maxDepth := max s.stats.maxDepth (s.depth + 1) } }
    match body deeper with
    | (r, s') => (r, { s' with depth := s'.depth - 1 })

/-! ### Names -/

def bind (n : Name) (t : Ty) : CompileM Unit :=
  modify fun s => { s with scopes := s.scopes.bind n t }

def unbind (n : Name) : CompileM Unit := modify fun s => { s with scopes := s.scopes.unbind n }

/-- Whether the innermost frame binds the name. -/
def hasLocal (n : Name) : CompileM Bool := do return (← get).scopes.hasLocal n

/-- The kind of a name, which is captured if it comes from outside the innermost frame. -/
def resolve (n : Name) : CompileM (Option Ty) :=
  modifyGet fun s => match s.scopes.resolve n s.captures with
    | (t, caps) => (t, { s with captures := caps })

/-- The kind of a name that has to be bound. -/
def mustResolve (n : Name) (pos : Pos) : CompileM Ty := do
  match ← resolve n with
  | some t => return t
  | none => reject pos (.undefinedVariable n)

/-! ### Closures -/

/-- Starts the code of a closure: a new frame that binds its parameters, and no captures yet. Gives
the captures of the code around it. -/
def enterClosure (params : List Name) : CompileM CaptureSet :=
  modifyGet fun s => (s.captures,
    { s with captures := ∅, scopes := params.foldl (·.bind · .any) s.scopes.push })

/-- Ends the code of a closure and goes back to the captures of the code around it. Gives the
captures of the closure. -/
def leaveClosure (outer : CaptureSet) : CompileM CaptureSet := do
  let enclosed := (← get).captures
  modify fun s => { s with captures := outer }
  match (← get).scopes.pop? with
  | none => malformed .rootPopped
  | some scopes =>
    modify fun s => { s with scopes }
    count fun c => { c with closures := c.closures + 1, captures := c.captures + enclosed.size }
    return enclosed

/-- Passes the captures of a closure on to the code around it. -/
def forwardCaptures (inner : CaptureSet) : CompileM Unit :=
  modify fun s => { s with captures := (inner.forward s.scopes s.captures).1 }

end CompileM

end ShellOps
