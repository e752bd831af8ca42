/-
# Flags of an open file

A file is opened with a word of flags: which access is asked for, whether the file is made or must
be new, whether it is emptied, written at its end only, written past all caches, has to be a
directory, is closed to the programs that a command starts, or is a new file that never gets a name.
A flag that has no bearing on what can be seen is passed over. The access asked for must be among
the permissions that a file gives its owner.
-/
import ShellOps.Bytes

namespace ShellOps

/-- How a file is open: for reading, for writing, for both, for neither, or as a mere handle. To
open it for neither is asked for as if it were both, and grants nothing; a handle asks for
nothing. -/
inductive Access
  | read | write | readWrite | neither | handle
deriving DecidableEq

namespace Access

/-- The access that the two lowest bits of a word ask for. -/
def ofWord (word : Int32) : Access :=
  let bits := word &&& 3
  if bits = 0 then read else if bits = 1 then write else if bits = 2 then readWrite else neither

def name : Access → String
  | read | handle => "r"
  | write => "w"
  | readWrite | neither => "rw"

/-- Whether reading is asked for. -/
def asksRead : Access → Bool
  | read | readWrite | neither => true
  | write | handle => false

/-- Whether writing is asked for. -/
def asksWrite : Access → Bool
  | write | readWrite | neither => true
  | read | handle => false

/-- Whether a file that is open so can be written. -/
def canWrite : Access → Bool
  | write | readWrite => true
  | read | neither | handle => false

end Access

/-- Whether permission bits let the owner of a file read it. -/
def mayRead (mode : UInt32) : Bool := mode &&& 0o400 ≠ 0

/-- Whether permission bits let the owner of a file write it. -/
def mayWrite (mode : UInt32) : Bool := mode &&& 0o200 ≠ 0

/-- The flags of an open file, taken apart. -/
structure OpenFlags where
  access : Access
  create : Bool := false
  exclusive : Bool := false
  truncate : Bool := false
  append : Bool := false
  direct : Bool := false
  directory : Bool := false
  unnamed : Bool := false
  closeOnExec : Bool := false
deriving DecidableEq

namespace OpenFlags

/-- Reads the flags off the bits of a word. A word that asks for a handle keeps only the bits that
make sense for one: that it be a directory, and that it be closed to other programs. -/
def ofWord (word : Int32) : OpenFlags :=
  let has (bit : Int32) : Bool := word &&& bit ≠ 0
  let directory := has 0o200000
  let closeOnExec := has 0o2000000
  if has 0o10000000 then { access := .handle, directory, closeOnExec }
  else
    { access := .ofWord word, create := has 0o100, exclusive := has 0o200, truncate := has 0o1000,
      append := has 0o2000, direct := has 0o40000, directory, unnamed := has 0o20000000,
      closeOnExec }

/-- Whether to open a file so asks to change it, be it only by emptying it. -/
def changes (f : OpenFlags) : Bool := f.access.asksWrite || f.truncate

/-- Whether the flags go together: opening makes files, never directories, and a file without a name
is made in a directory and for writing. -/
def consistent (f : OpenFlags) : Bool :=
  !(f.create && f.directory) && (!f.unnamed || f.directory && f.access.asksWrite)

/-- Whether permission bits let the owner of a file open it so. -/
def permitted (f : OpenFlags) (mode : UInt32) : Bool :=
  (!f.access.asksRead || mayRead mode) && (!f.changes || mayWrite mode)

end OpenFlags

end ShellOps
