/-
# A small disk

Files and directories below a working directory, and how a path is opened there. A path is walked
name by name: every name but the last must be a directory, `.` is the directory itself and `..` the
one above it. Going up from the working directory leads outside, and so does a path that starts with
a slash. Of what lies outside nothing is known: it is taken as one directory, which is empty at
first and is its own parent. All files belong to whoever opens them, so what counts is what a file
permits its owner.
-/
import ShellOps.Evaluator
import ShellOps.Machine.OpenFlags

namespace ShellOps

/-- A file with its permission bits and its content, or a directory. -/
inductive DiskNode
  | file (mode : UInt32) (content : Bytes)
  | directory
deriving DecidableEq

/-- A node as its owner sees it: a file that may not be read shows no content. -/
def DiskNode.seen : DiskNode → DiskNode
  | .file mode content => .file mode (if mayRead mode then content else [])
  | .directory => .directory

/-- What stands below the working directory, by path, what was made outside of it, and the files
without a name, by number. -/
structure Disk where
  nodes : NameMap DiskNode := ∅
  outer : NameMap DiskNode := ∅
  unnamed : NameMap DiskNode := ∅

/-! ### Permission bits -/

/-- The permission bits that a new file can have. -/
def modeBits : UInt32 := 0o7777

/-- The permission bits of a file once it is written or emptied: it no longer runs in the name of
its owner, nor, if its group may run it, in the name of its group. -/
def plainMode (mode : UInt32) : UInt32 :=
  if mode &&& 0o10 ≠ 0 then mode &&& 0o1777 else mode &&& 0o3777

/-! ### Places -/

/-- The byte between the names of a path. -/
def slash : UInt8 := 47

/-- The longest name of a file. -/
def maxNameLength : Nat := 255

/-- The longest path. -/
def maxPathLength : Nat := 4095

/-- Where the names of a place start: at the working directory, outside of it, or where no path
leads. -/
inductive Origin
  | working | outside | unnamed
deriving DecidableEq

/-- A place on the disk, by its names from the innermost out. -/
structure Place where
  origin : Origin
  names : List Name := []
deriving DecidableEq

namespace Place

/-- The directory above a place. -/
def parent : Place → Place
  | ⟨_, []⟩ => ⟨.outside, []⟩
  | ⟨origin, _ :: names⟩ => ⟨origin, names⟩

/-- What has a name in the directory at a place. -/
def child (p : Place) (n : Name) : Place := { p with names := n :: p.names }

/-- The path of a place from its origin. -/
def path (p : Place) : Name := joinWith [slash] p.names.reverse

/-- Where the names of a path start. -/
def start (path : Bytes) : Place :=
  if path.head? = some slash then ⟨.outside, []⟩ else ⟨.working, []⟩

@[simp] theorem parent_child (p : Place) (n : Name) : (p.child n).parent = p := rfl

end Place

/-- The names of a path. -/
def pathNames (path : Bytes) : List Name := (splitOnByte slash path).filter (· ≠ [])

/-- Whether a name stands for a directory wherever it is. -/
def isDots (n : Name) : Bool := n = utf8 "." || n = utf8 ".."

/-! ### Looking up and changing -/

namespace Disk

/-- What is known from an origin on. -/
def nodesFrom (d : Disk) : Origin → NameMap DiskNode
  | .working => d.nodes
  | .outside => d.outer
  | .unnamed => d.unnamed

/-- What stands at a place; an origin is a directory. -/
def nodeAt? (d : Disk) (p : Place) : Option DiskNode :=
  if p.names = [] then some .directory else (d.nodesFrom p.origin)[p.path]?

/-- Puts a node at a place. -/
def put (d : Disk) (p : Place) (node : DiskNode) : Disk :=
  match p.origin with
  | .working => { d with nodes := d.nodes.insert p.path node }
  | .outside => { d with outer := d.outer.insert p.path node }
  | .unnamed => { d with unnamed := d.unnamed.insert p.path node }

/-- Everything below the working directory, sorted by path, as its owner sees it. -/
def entries (d : Disk) : List (Name × DiskNode) := d.nodes.toList.map fun (n, x) => (n, x.seen)

/-- The content of the file at a place. -/
def contentAt? (d : Disk) (p : Place) : Option Bytes :=
  match d.nodeAt? p with
  | some (.file _ content) => some content
  | _ => none

/-! ### Opening -/

/-- One step from a directory to a name in it. -/
def step (d : Disk) (place : Place) (name : Name) : Except OpenError (Place × Option DiskNode) :=
  if name = utf8 "." then .ok (place, some .directory)
  else if name = utf8 ".." then .ok (place.parent, some .directory)
  else if maxNameLength < name.length then .error .nameTooLong
  else .ok (place.child name, d.nodeAt? (place.child name))

/-- Walks through the names of a path, each of which must be a directory. -/
def walk (d : Disk) : Place → List Name → Except OpenError Place
  | place, [] => .ok place
  | place, name :: names => do
    match ← d.step place name with
    | (next, some .directory) => walk d next names
    | (_, some (.file ..)) => .error .notDirectory
    | (_, none) => .error .noEntry

/-- What opening comes to once the last name has been looked up. The permissions of a file count from
its next opening on, not for the one that makes it. -/
def settle (d : Disk) (flags : OpenFlags) (mode : UInt32) (asDirectory : Bool) (place : Place) :
    Option DiskNode → Except OpenError Disk
  | none =>
    if flags.create then .ok (d.put place (.file (mode &&& modeBits) [])) else .error .noEntry
  | some .directory =>
    if flags.create then .error (if flags.exclusive then .alreadyExists else .isDirectory)
    else if flags.changes then .error .isDirectory
    else if flags.direct then .error .invalidFlags
    else .ok d
  | some (.file m _) =>
    if flags.create && flags.exclusive then .error .alreadyExists
    else if asDirectory then .error .notDirectory
    else if !flags.permitted m then .error .permissionDenied
    else if flags.truncate then .ok (d.put place (.file (plainMode m) []))
    else .ok d

/-- The place of the next file without a name. -/
def nextUnnamed (d : Disk) : Place := ⟨.unnamed, [decimal d.unnamed.size]⟩

/-- Opens a path: the disk afterwards and the place that was opened. A path that ends in a slash
names a directory, and none can be made that way. For a file without a name the path is that of a
directory. -/
def open? (d : Disk) (path : Bytes) (flags : OpenFlags) (mode : UInt32) :
    Except OpenError (Disk × Place) := do
  if !flags.consistent then throw .invalidFlags
  if path = [] then throw .noEntry
  if maxPathLength < path.length then throw .nameTooLong
  let endsInSlash : Bool := path.getLast? = some slash
  let asDirectory := endsInSlash || flags.directory
  let start := Place.start path
  if flags.unnamed then
    let _ ← d.walk start (pathNames path)
    return (d.put d.nextUnnamed (.file (mode &&& modeBits) []), d.nextUnnamed)
  match (pathNames path).getLast? with
  | none => return (← d.settle flags mode asDirectory start (some .directory), start)
  | some last =>
    let place ← d.walk start (pathNames path).dropLast
    if endsInSlash && !isDots last && flags.create then throw .isDirectory
    let (place, node) ← d.step place last
    return (← d.settle flags mode asDirectory place node, place)

/-! ### Filling -/

/-- Makes a directory of each name in turn where there is none. -/
def makeWay (d : Disk) : Place → List Name → Disk
  | _, [] => d
  | place, name :: names =>
    match d.step place name with
    | .ok (next, some .directory) => makeWay d next names
    | .ok (next, none) => makeWay (d.put next .directory) next names
    | _ => d

/-- Makes the directory at a path, and those on the way to it. -/
def makeDirectory (d : Disk) (path : Bytes) : Disk :=
  d.makeWay (Place.start path) (pathNames path)

/-- Puts a file with some content at a path, and makes the directories on the way to it. -/
def writeFile (d : Disk) (path : Bytes) (mode : UInt32) (content : Bytes) : Disk :=
  let d := d.makeWay (Place.start path) (pathNames path).dropLast
  match d.open? path { access := .write, create := true, truncate := true } mode with
  | .ok (d, place) => d.put place (.file mode content)
  | .error _ => d

end Disk

/-! ### Open files -/

/-- A file or directory that is open: where it is, how, and at which offset it is written next. -/
structure OpenFile where
  place : Place
  flags : OpenFlags
  offset : Nat := 0

namespace OpenFile

/-- The bytes of a file after writing `bytes` at `offset`; a gap is filled with zeros. -/
def splice (content : Bytes) (offset : Nat) (bytes : Bytes) : Bytes :=
  content.take offset ++ List.replicate (offset - content.length) 0 ++ bytes ++
    content.drop (offset + bytes.length)

/-- Writes to an open file, unless it is a directory or not open for writing. -/
def write? (f : OpenFile) (d : Disk) (bytes : Bytes) : Option (OpenFile × Disk) :=
  if !f.flags.access.canWrite then none
  else match d.nodeAt? f.place with
    | some (.file mode content) =>
      let offset := if f.flags.append then content.length else f.offset
      some ({ f with offset := offset + bytes.length },
        d.put f.place (.file (plainMode mode) (splice content offset bytes)))
    | _ => none

end OpenFile

end ShellOps
