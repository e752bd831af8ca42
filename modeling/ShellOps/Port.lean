/-
# Ports

A port binds a descriptor of a pipeline stage to a file and a channel. It owns them only where a
flag says so: closing a port closes what it owns and nothing else, and a copy of a port owns
nothing.
-/
import ShellOps.Bytes

namespace ShellOps

variable {C : Type}

/-- A file, by its number, and a channel. A negative number is no file. -/
structure Port (C : Type) where
  fd : Int := -1
  channel : Option C := none
  closeFile : Bool := false
  closeChannel : Bool := false
deriving DecidableEq

namespace Port

/-- The port with neither file nor channel. -/
def empty : Port C := {}

def isEmpty (p : Port C) : Bool := p.fd < 0 && p.channel.isNone

/-- A copy, which does not own what it shares. -/
def share (p : Port C) : Port C := { p with closeFile := false, closeChannel := false }

/-- The file that closing the port closes. -/
def ownedFile (p : Port C) : Option Int := if p.closeFile ∧ 0 ≤ p.fd then some p.fd else none

/-- The channel that closing the port closes. -/
def ownedChannel (p : Port C) : Option C := if p.closeChannel then p.channel else none

@[simp] theorem ownedFile_share (p : Port C) : p.share.ownedFile = none := by
  simp [share, ownedFile]

@[simp] theorem ownedChannel_share (p : Port C) : p.share.ownedChannel = none := by
  simp [share, ownedChannel]

@[simp] theorem ownedFile_empty : (empty : Port C).ownedFile = none := rfl

@[simp] theorem ownedChannel_empty : (empty : Port C).ownedChannel = none := rfl

end Port

/-! ### Files and channels by number -/

/-- Which of some files are open, and which of some channels are closed, by number; and the
channels that were closed, in order, again for each time. -/
structure HandleTable where
  filesOpen : List Bool
  channelsClosed : List Bool
  closings : List Nat := []

namespace HandleTable

/-- So many open files and so many open channels. -/
def fresh (files channels : Nat) : HandleTable :=
  ⟨List.replicate files true, List.replicate channels false, []⟩

/-- Closes what a port owns. -/
def close (t : HandleTable) (p : Port Nat) : HandleTable :=
  { filesOpen := match p.ownedFile with
      | some fd => t.filesOpen.set fd.toNat false
      | none => t.filesOpen
    channelsClosed := match p.ownedChannel with
      | some c => t.channelsClosed.set c true
      | none => t.channelsClosed
    closings := t.closings ++ p.ownedChannel.toList }

end HandleTable

end ShellOps
