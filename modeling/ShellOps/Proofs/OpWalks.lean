/-
# Walks through ops

Which names an op needs and which it leaves, found by walking it with a set of names. There are two
orders in which to walk an op.

`localsAfter` goes in the order of compiling: in a form the command, then the ports, then the
arguments or the op of the special form. It has two sets, the locals of the code and the names it
captured, and a name has to be in one of them; the code of a closure is walked from its parameters and
its own captures alone.

`namesAfter` goes in the order of running: in a form the command, then the arguments, then the ports,
then the op of the special form; and the names that `set` assigns to are needed after its values, not
before. There is one set, and the code of closures is left out.
-/
import Mathlib.Data.Finset.Basic
import Mathlib.Data.Finset.Dedup
import ShellOps.Op
import ShellOps.Proofs.Scope

namespace ShellOps

variable {F S : Type}

/-! ### Steps -/

/-- Steps of a walk one after the other. -/
def inTurn : List (S → Option S) → S → Option S
  | [], a => some a
  | step :: steps, a => (step a).bind (inTurn steps)

/-- Steps of two walks in turns. -/
def alternate : List (S → Option S) → List (S → Option S) → List (S → Option S)
  | a :: as, b :: bs => a :: b :: alternate as bs
  | _, _ => []

theorem inTurn_of_stays {steps : List (S → Option S)} {a : S} (h : ∀ step ∈ steps, step a = some a) :
    inTurn steps a = some a := by
  induction steps with
  | nil => rfl
  | cons step steps ih =>
    rw [inTurn, h step List.mem_cons_self]
    exact ih fun step' hstep' => h step' (List.mem_cons_of_mem step hstep')

/-! ### In the order of compiling -/

/-- The name is a local or a captured one. -/
def Visible (caps : CaptureSet) (locals : Frame) (n : Name) : Prop := n ∈ locals ∨ n ∈ caps

instance (caps : CaptureSet) (locals : Frame) (n : Name) : Decidable (Visible caps locals n) :=
  inferInstanceAs (Decidable (_ ∨ _))

/-- The locals with some names added. -/
def withNames (locals : Frame) (names : List Name) : Frame := names.foldl (·.insert · .any) locals

/-- The name of the function of the script that a form calls. -/
def callee? (command : ValuesOp F) (kind : CommandKind) : Option Name :=
  match kind, command with
  | .userFunction, .string text _ => some (functionName text)
  | _, _ => none

mutual

/-- The locals after an op, if every name it uses is a local or in `caps` when its turn comes. -/
def ValuesOp.localsAfter (caps : CaptureSet) : ValuesOp F → Frame → Option Frame
  | .missing, locals => some locals
  | .string .., locals => some locals
  | .variable n _, locals => if Visible caps locals n then some locals else none
  | .compound parts _, locals => inTurn (localsSteps caps parts) locals
  | .spaced items _, locals => inTurn (localsSteps caps items) locals
  | .subscript left index _, locals => (left.localsAfter caps locals).bind (index.localsAfter caps)
  | .table items keys values _, locals => (items.localsAfter caps locals).bind
      (inTurn (alternate (localsSteps caps keys) (localsSteps caps values)))
  | .closure params captures chunk _, locals =>
    if (∀ n ∈ captures.keys, Visible caps locals n) ∧
        (chunk.localsAfter captures (withNames ∅ params)).isSome then some locals
    else none
  | .chanCapture inner _, locals => inner.localsAfter caps locals
  | .pipeline stages _, locals => inTurn (stageSteps caps stages) locals
  | .chunk pipelines _, locals => inTurn (localsSteps caps pipelines) locals
  | .var names values _, locals => (values.localsAfter caps locals).map (withNames · names)
  | .set names values _, locals =>
    if ∀ n ∈ names, Visible caps locals n then values.localsAfter caps locals else none
  | .del names _, locals => deleteNames names locals
  | .fn name closure _, locals =>
    closure.localsAfter caps (locals.insert (functionName name) .closure)

def localsSteps (caps : CaptureSet) : List (ValuesOp F) → List (Frame → Option Frame)
  | [] => []
  | op :: ops => op.localsAfter caps :: localsSteps caps ops

/-- The locals after a form: its command, its ports, its arguments, the op of a special form. The
function it calls has to be visible before its arguments or after them. -/
def FormOp.localsAfter (caps : CaptureSet) : FormOp F → Frame → Option Frame
  | ⟨command, args, ports, resolution, _, _⟩, locals =>
    ((command.localsAfter caps locals).bind (inTurn (portSteps caps ports))).bind fun before =>
      ((args.localsAfter caps before).bind (resolution.localsAfter caps)).bind fun after =>
        if ∀ n ∈ callee? command resolution.kind, Visible caps before n ∨ Visible caps after n then
          some after
        else none

def stageSteps (caps : CaptureSet) : List (Option (FormOp F)) → List (Frame → Option Frame)
  | [] => []
  | f :: fs => stageStep caps f :: stageSteps caps fs

def stageStep (caps : CaptureSet) : Option (FormOp F) → Frame → Option Frame
  | none => some
  | some f => f.localsAfter caps

def Resolution.localsAfter (caps : CaptureSet) : Resolution F → Frame → Option Frame
  | ⟨_, _, _, op⟩ => op.localsAfter caps

def portSteps (caps : CaptureSet) : List (Option (PortOp F)) → List (Frame → Option Frame)
  | [] => []
  | p :: ps => portStep caps p :: portSteps caps ps

def portStep (caps : CaptureSet) : Option (PortOp F) → Frame → Option Frame
  | none => some
  | some p => p.localsAfter caps

def PortOp.localsAfter (caps : CaptureSet) : PortOp F → Frame → Option Frame
  | .close _ => some
  | .dup _ _ => some
  | .file filename _ _ _ => filename.localsAfter caps

end

variable {caps : CaptureSet}

theorem localsAfter_word (parts : List (ValuesOp F)) (pos : Pos) (locals : Frame) :
    (ValuesOp.word parts pos).localsAfter caps locals = inTurn (localsSteps caps parts) locals := by
  match parts with
  | [] | _ :: _ :: _ => simp only [ValuesOp.word, ValuesOp.localsAfter]
  | [part] => simp [localsSteps, inTurn]

theorem localsAfter_indexed (left index : ValuesOp F) (pos : Pos) (locals : Frame) :
    (ValuesOp.indexed left index pos).localsAfter caps locals =
      (left.localsAfter caps locals).bind (index.localsAfter caps) := by
  cases index with
  | missing =>
    have hmissing : (ValuesOp.missing : ValuesOp F).localsAfter caps = some := by
      funext locals
      simp [ValuesOp.localsAfter]
    simp [ValuesOp.indexed, hmissing]
  | _ => simp only [ValuesOp.indexed, ValuesOp.localsAfter]

theorem localsSteps_eq_map : ∀ ops : List (ValuesOp F),
    localsSteps caps ops = ops.map (ValuesOp.localsAfter caps)
  | [] => by simp [localsSteps]
  | op :: ops => by simp [localsSteps, localsSteps_eq_map ops]

theorem stageSteps_eq_map : ∀ stages : List (Option (FormOp F)),
    stageSteps caps stages = stages.map (stageStep caps)
  | [] => by simp [stageSteps]
  | f :: stages => by simp [stageSteps, stageSteps_eq_map stages]

theorem portSteps_eq_map : ∀ ports : List (Option (PortOp F)),
    portSteps caps ports = ports.map (portStep caps)
  | [] => by simp [portSteps]
  | p :: ports => by simp [portSteps, portSteps_eq_map ports]

/-! ### In the order of running -/

/-- The names, if some are among them. -/
def needing (names : List Name) (A : Finset Name) : Option (Finset Name) :=
  if ∀ n ∈ names, n ∈ A then some A else none

mutual

/-- The names that are defined after an op ran, if every name that it looks up is defined when its
turn comes. -/
def ValuesOp.namesAfter : ValuesOp F → Finset Name → Option (Finset Name)
  | .missing, A => some A
  | .string .., A => some A
  | .variable n _, A => needing [n] A
  | .compound parts _, A => inTurn (namesSteps parts) A
  | .spaced items _, A => inTurn (namesSteps items) A
  | .subscript left index _, A => (left.namesAfter A).bind index.namesAfter
  | .table items keys values _, A => (items.namesAfter A).bind
      (inTurn (alternate (namesSteps keys) (namesSteps values)))
  | .closure _ captures _ _, A => needing captures.keys A
  | .chanCapture inner _, A => inner.namesAfter A
  | .pipeline stages _, A => inTurn (stageNames stages) A
  | .chunk pipelines _, A => inTurn (namesSteps pipelines) A
  | .var names values _, A => (values.namesAfter A).bind fun B => some (B ∪ names.toFinset)
  | .set names values _, A => (values.namesAfter A).bind (needing names)
  | .del names _, A => some (A \ names.toFinset)
  | .fn name closure _, A => (closure.namesAfter A).bind fun B => some (insert (functionName name) B)

def namesSteps : List (ValuesOp F) → List (Finset Name → Option (Finset Name))
  | [] => []
  | op :: ops => op.namesAfter :: namesSteps ops

/-- The names after a form ran: its command, its arguments, its ports, the op of a special form. -/
def FormOp.namesAfter : FormOp F → Finset Name → Option (Finset Name)
  | ⟨command, args, ports, resolution, _, _⟩, A =>
    (command.namesAfter A).bind fun B => (args.namesAfter B).bind fun C =>
      (inTurn (portNames ports) C).bind resolution.namesAfter

def stageNames : List (Option (FormOp F)) → List (Finset Name → Option (Finset Name))
  | [] => []
  | f :: fs => stageName f :: stageNames fs

def stageName : Option (FormOp F) → Finset Name → Option (Finset Name)
  | none, A => some A
  | some f, A => f.namesAfter A

def Resolution.namesAfter : Resolution F → Finset Name → Option (Finset Name)
  | ⟨.special, _, _, op⟩, A => op.namesAfter A
  | _, A => some A

def portNames : List (Option (PortOp F)) → List (Finset Name → Option (Finset Name))
  | [] => []
  | p :: ps => portName p :: portNames ps

def portName : Option (PortOp F) → Finset Name → Option (Finset Name)
  | none, A => some A
  | some p, A => p.namesAfter A

def PortOp.namesAfter : PortOp F → Finset Name → Option (Finset Name)
  | .close _, A => some A
  | .dup _ _, A => some A
  | .file filename _ _ _, A => filename.namesAfter A

end

theorem namesAfter_word (parts : List (ValuesOp F)) (pos : Pos) (A : Finset Name) :
    (ValuesOp.word parts pos).namesAfter A = inTurn (namesSteps parts) A := by
  match parts with
  | [] | _ :: _ :: _ => simp only [ValuesOp.word, ValuesOp.namesAfter]
  | [part] => simp [namesSteps, inTurn]

theorem namesAfter_indexed (left index : ValuesOp F) (pos : Pos) (A : Finset Name) :
    (ValuesOp.indexed left index pos).namesAfter A =
      (left.namesAfter A).bind index.namesAfter := by
  cases index with
  | missing =>
    have hmissing : (ValuesOp.missing : ValuesOp F).namesAfter = some := by
      funext A
      simp [ValuesOp.namesAfter]
    simp [ValuesOp.indexed, hmissing]
  | _ => simp only [ValuesOp.indexed, ValuesOp.namesAfter]

theorem namesAfter_plain {resolution : Resolution F} (h : resolution.kind ≠ .special)
    (A : Finset Name) : resolution.namesAfter A = some A := by
  obtain ⟨kind, function, special, op⟩ := resolution
  cases kind <;> first | exact absurd rfl h | simp only [Resolution.namesAfter]

theorem namesSteps_eq_map : ∀ ops : List (ValuesOp F), namesSteps ops = ops.map ValuesOp.namesAfter
  | [] => by simp [namesSteps]
  | op :: ops => by simp [namesSteps, namesSteps_eq_map ops]

theorem stageNames_eq_map : ∀ stages : List (Option (FormOp F)),
    stageNames stages = stages.map stageName
  | [] => by simp [stageNames]
  | f :: stages => by simp [stageNames, stageNames_eq_map stages]

theorem portNames_eq_map : ∀ ports : List (Option (PortOp F)), portNames ports = ports.map portName
  | [] => by simp [portNames]
  | p :: ports => by simp [portNames, portNames_eq_map ports]

end ShellOps
