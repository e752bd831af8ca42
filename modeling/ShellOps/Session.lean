/-
# Sessions

A session has a registry of builtins, a machine, and ops kept under names. Scripts are compiled
with the builtins registered at that moment and run on the one machine, so an op that was kept goes
on using the builtins it was compiled with.
-/
import ShellOps.Compiler
import ShellOps.Machine.Basic
import ShellOps.Special.Core
import ShellOps.Special.Stock

namespace ShellOps

open Machine (Function Value State world)

/-- A registry with the binding forms, if asked for, then functions that behave as the commands of
their names, then stock forms. -/
def Registry.stocked (core : Bool) (functions : List Name) (specials : List (Name × Stock)) :
    Registry Function :=
  let r : Registry Function := if core then Registry.empty.registerCore else .empty
  let r := functions.foldl (fun r n => r.registerFunction n (.command n)) r
  specials.foldl (fun r (n, s) => r.registerSpecial n s.compile) r

/-- Builtins, a machine, and the ops kept so far. -/
structure Session where
  registry : Registry Function
  options : Options
  state : State
  kept : NameMap (ValuesOp Function) := ∅

/-- Runs a step of the machine from a state. -/
def Machine.State.run {α : Type} (s : State) (step : Run world α) : Except EvalError α × State :=
  ExceptT.run step s

/-- The names in scope, with the number and the value of each variable. -/
def Machine.State.bindings (s : State) : List (Name × Nat × Value) :=
  s.frame.toList.map fun (n, id) => (n, id, s.valueOf id)

namespace Session

def compiler (s : Session) : Compiler Function := ⟨s.registry, s.options⟩

/-- Compiles a script and keeps its op under `label`; if it does not compile nothing is kept
there. -/
def compile (s : Session) (label : Name) (source : Source) (chunk : Chunk) (root : Frame) :
    Except Malformed (CompileResult Function) × Session :=
  let result := s.compiler.compile source chunk root
  let kept := match result with
    | .ok ⟨.ok op, _⟩ => s.kept.insert label op
    | _ => s.kept.erase label
  (result, { s with kept })

/-- Runs the op kept under `label`, if there is one. -/
def run? (s : Session) (label : Name) : Option (Except EvalError (List Value) × Session) :=
  s.kept[label]?.map fun op =>
    match s.state.run (op.eval Machine.top) with
    | (r, state) => (r, { s with state })

def registerFunction (s : Session) (n like : Name) : Session :=
  { s with registry := s.registry.registerFunction n (.command like) }

def registerSpecial (s : Session) (n : Name) (like : Stock) : Session :=
  { s with registry := s.registry.registerSpecial n like.compile }

def unregisterFunction (s : Session) (n : Name) : Session :=
  { s with registry := s.registry.unregisterFunction n }

def unregisterSpecial (s : Session) (n : Name) : Session :=
  { s with registry := s.registry.unregisterSpecial n }

def clear (s : Session) : Session := { s with registry := s.registry.clear }

end Session

end ShellOps
