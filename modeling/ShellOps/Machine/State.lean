/-
# The state of the machine

The machine keeps its variables by number, the frame of names in scope, the ports in force, the
current input and output, the files it has opened, and a log of every operation. Opening a file
gives it a number above all numbers in use.
-/
import ShellOps.Machine.Disk
import ShellOps.Machine.Value

namespace ShellOps.Machine

/-! ### What is logged -/

/-- A file as it is seen at one moment: none, one known by its number only, or an open one. -/
inductive FileView
  | none
  | number (fd : Int)
  | opened (access : Access) (append closeOnExec : Bool) (size : Option Nat)

/-- A port as it is seen at one moment. -/
structure PortView where
  file : FileView
  port : Port Nat

/-- An operation of the machine. -/
inductive Event
  | string (text : Bytes)
  | table (value : Value)
  | closure (value : Value)
  | channel (id : Nat)
  | concat (left right : Bytes) (pos : Pos)
  | index (container key : Bytes) (pos : Pos)
  | lookup (name : Name) (id : Option Nat)
  | define (name : Name) (id : Nat) (value : Value)
  | remove (name : Name)
  | get (id : Nat)
  | set (id : Nat) (value : Value)
  | port (fd : Int) (found : Bool)
  | call (kind : String) (command args : List Value) (pos : Pos) (ports : List PortView)
  | pipeline (stages : Nat) (pos : Pos)
  | capture (kind : String) (pos : Pos)
  | function (name : Name)
  | channelClosed (id : Nat)

/-! ### The state -/

structure State where
  /-- The value of each variable, by number. -/
  store : Array Value := #[]
  /-- The numbers of the variables in scope. -/
  frame : NameMap Nat := ∅
  /-- The ports in force, by descriptor. -/
  ports : Std.ExtTreeMap Int (Port Nat) := ∅
  /-- The number of channels made so far, and how many there may be. -/
  channels : Nat := 0
  channelLimit : Option Nat := none
  input : List Value := []
  output : List Value := []
  /-- The operations so far, the last one first. -/
  log : List Event := []
  /-- The open files, by number, and the number of the next one. -/
  files : Std.ExtTreeMap Int OpenFile := ∅
  nextFile : Int := 0
  disk : Disk := {}

/-- The world of the machine. -/
abbrev world : World := ⟨State, Value, Nat, Nat⟩

namespace State

def record (s : State) (e : Event) : State := { s with log := e :: s.log }

/-- The operations since the log was last shown, in order, and the state with an empty log. -/
def takeLog (s : State) : List Event × State := (s.log.reverse, { s with log := [] })

/-- A new variable: its number and the state with it. -/
def allocate (s : State) (v : Value) : Nat × State :=
  (s.store.size, { s with store := s.store.push v })

/-- A new variable under a name of the frame. -/
def bindNew (s : State) (n : Name) (v : Value) : State :=
  match s.allocate v with
  | (id, s) => { s with frame := s.frame.insert n id }

def valueOf (s : State) (id : Nat) : Value := s.store[id]?.getD (.text .any [])

/-- Adds values to the current output. -/
def emit (s : State) (vs : List Value) : State := { s with output := s.output ++ vs }

/-! ### Ports and files -/

/-- The file of a port, as it is now. -/
def viewFile (s : State) (fd : Int) : FileView :=
  if fd < 0 then .none
  else match s.files[fd]? with
    | none => .number fd
    | some f =>
      .opened f.flags.access f.flags.append f.flags.closeOnExec
        ((s.disk.contentAt? f.place).map List.length)

/-- A port, as it is now. -/
def viewPort (s : State) (p : Port Nat) : PortView := ⟨s.viewFile p.fd, p⟩

/-- Puts the ports of a call in force, from descriptor `fd` on; an empty one takes its descriptor
away. -/
def install (ports : Std.ExtTreeMap Int (Port Nat)) : Int → List (Port Nat) →
    Std.ExtTreeMap Int (Port Nat)
  | _, [] => ports
  | fd, p :: ps =>
    install (if p.isEmpty then ports.erase fd else ports.insert fd p) (fd + 1) ps

def closeFile (s : State) (fd : Int) : State := { s with files := s.files.erase fd }

def closeChannel (s : State) (c : Nat) : State := s.record (.channelClosed c)

/-- Closes what a port owns. -/
def closePort (s : State) (p : Port Nat) : State :=
  let s := match p.ownedFile with
    | some fd => s.closeFile fd
    | none => s
  match p.ownedChannel with
  | some c => s.closeChannel c
  | none => s

/-- Opens a file. -/
def openFile (s : State) (path : Bytes) (flags : Int32) (mode : UInt32) :
    Except OpenError Int × State :=
  let flags := OpenFlags.ofWord flags
  match s.disk.open? path flags mode with
  | .error e => (.error e, s)
  | .ok (disk, place) =>
    (.ok s.nextFile,
      { s with disk, files := s.files.insert s.nextFile { place, flags },
               nextFile := s.nextFile + 1 })

/-- Writes a line to an open file, if it can be written. -/
def writeLine? (s : State) (fd : Int) (line : Bytes) : Option State := do
  let f ← s.files[fd]?
  let (f, disk) ← f.write? s.disk (line ++ [newline])
  return { s with files := s.files.insert fd f, disk }

/-- The file, opened by this machine, that descriptor 1 stands for. -/
def outputFile? (s : State) : Option Int :=
  match s.ports[(1 : Int)]? with
  | some p => if s.files.contains p.fd then some p.fd else none
  | none => none

end State

/-! ### Where the machine starts -/

/-- A port that is in force from the start: a file known by its number only, and maybe a channel. -/
structure GivenPort where
  descriptor : Int
  fd : Option Int
  withChannel : Bool
  closeFile : Bool
  closeChannel : Bool

/-- What a machine starts from. -/
structure Setup where
  bindings : List (Name × Value) := []
  ports : List GivenPort := []
  input : List Value := []
  channelLimit : Option Nat := none
  directories : List Name := []
  files : List (Name × Bytes) := []

namespace Setup

/-- Puts a given port in force; its channel, if any, is the next one. -/
def installGiven (s : State) (g : GivenPort) : State :=
  let p : Port Nat :=
    { fd := g.fd.getD (-1), channel := if g.withChannel then some s.channels else none,
      closeFile := g.closeFile, closeChannel := g.closeChannel }
  { s with ports := s.ports.insert g.descriptor p
           channels := if g.withChannel then s.channels + 1 else s.channels
           nextFile := max s.nextFile (p.fd + 1) }

/-- The permission bits of the files at the start. -/
def fileMode : UInt32 := 0o666

/-- The disk at the start: the directories, then the files. -/
def disk (u : Setup) : Disk :=
  let d := u.directories.foldl Disk.makeDirectory ({} : Disk)
  u.files.foldl (fun d (path, content) => d.writeFile path fileMode content) d

/-- The state at the start. -/
def start (u : Setup) : State :=
  let s : State := { input := u.input, channelLimit := u.channelLimit, disk := u.disk }
  let s := u.bindings.foldl (fun s (n, v) => s.bindNew n v) s
  u.ports.foldl installGiven s

end Setup

end ShellOps.Machine
