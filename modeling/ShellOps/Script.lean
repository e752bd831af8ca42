/-
# The tree of a script

A chunk is a sequence of pipelines, a pipeline a sequence of forms, and a form a command word with
argument words and redirections. A word is parts standing side by side; a part is a primary with an
optional index. Every node has the offset of the script it came from.

A tree may be broken: where a node can be missing the field is an `Option`, and a primary or a
redirection of a kind that is not known is `unknown`.
-/
import ShellOps.Bytes
import ShellOps.Ty

namespace ShellOps

mutual

/-- Pipelines that run one after the other. -/
structure Chunk where
  pos : Pos
  pipelines : List Pipeline

/-- Forms that run side by side, each reading what the one before it writes. -/
structure Pipeline where
  pos : Pos
  forms : List Form

/-- A command with its arguments and redirections. -/
structure Form where
  pos : Pos
  command : Option Word
  argsPos : Pos
  args : List (Option Word)
  redirections : List Redirection

/-- Parts whose values are joined; a sigil is the one-byte name of a command that the word is
passed to. -/
structure Word where
  pos : Pos
  sigil : Option UInt8
  parts : List Part

/-- A primary, with the word that indexes it. -/
structure Part where
  pos : Pos
  left : Primary
  index : Option Word

/-- What a word is made of. -/
inductive Primary
  | string (pos : Pos) (text : Bytes)
  | variable (pos : Pos) (name : Name)
  | table (pos : Pos) (items : List (Option Word)) (pairs : List TablePair)
  | closure (pos : Pos) (literal : Option Closure)
  | list (pos : Pos) (itemsPos : Pos) (items : List (Option Word))
  | chanCapture (pos : Pos) (pipeline : Option Pipeline)
  | statusCapture (pos : Pos) (pipeline : Option Pipeline)
  | unknown (pos : Pos)

/-- A key of a table literal and what it maps to. -/
structure TablePair where
  key : Option Word
  value : Option Word

/-- A closure literal: its parameters and its code. -/
structure Closure where
  pos : Pos
  params : List Name
  chunk : Chunk

/-- What the descriptor `fd` of a form becomes. -/
structure Redirection where
  pos : Pos
  fd : Int
  target : RedirectTarget

/-- Nothing, a copy of another descriptor, or a file opened with the given flags. -/
inductive RedirectTarget
  | close
  | dup (source : Int)
  | file (flags : Int32) (filename : Option Word)
  | unknown

end

/-- The name of a script, and its text. -/
structure Source where
  name : Name
  text : Bytes
deriving DecidableEq

namespace Primary

def pos : Primary → Pos
  | .string p _ | .variable p _ | .table p _ _ | .closure p _ | .list p _ _ | .chanCapture p _
  | .statusCapture p _ | .unknown p => p

/-- The names of the kinds of primary, in the order of their numbers. -/
def kindNames : List String :=
  ["string", "variable", "table", "closure", "list", "chan-capture", "status-capture"]

end Primary

namespace Word

/-- The one primary of a word without sigil and without index. -/
def sole? (w : Word) : Option Primary :=
  match w.sigil, w.parts with
  | none, [⟨_, left, none⟩] => some left
  | _, _ => none

/-- The text of a word that is nothing but a string. -/
def plain? (w : Word) : Option Bytes :=
  match w.sole? with
  | some (.string _ text) => some text
  | _ => none

end Word

end ShellOps
