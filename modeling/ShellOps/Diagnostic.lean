/-
# What a user is told about an error

A `Diagnostic` is a message at a place in a script. Its place is counted in lines and columns from
one, in 32-bit words; a place past the end of the script is its end. It is written as one line with
the name, the place and the message, then the line of the script it points into, then a caret.
-/
import ShellOps.Bytes

namespace ShellOps

/-- A message at the byte offset `pos` of the script `name` with text `text`. -/
structure Diagnostic where
  name : Name
  text : Bytes
  pos : Pos
  message : Bytes
deriving DecidableEq

namespace Diagnostic

/-- The offset pointed at: `pos`, or the end of the text if that comes first. -/
def offset (d : Diagnostic) : Nat := min d.pos d.text.length

/-- The part of the text before the offset pointed at. -/
def before (d : Diagnostic) : Bytes := d.text.take d.offset

/-- The number of the line, from one. -/
def line (d : Diagnostic) : UInt32 := UInt32.ofNat (d.before.count newline) + 1

/-- The offset of the last byte before the offset pointed at that ends a line, looked for from there
back. -/
def lastNewline? (d : Diagnostic) : Option Nat :=
  (d.before.reverse.idxOf? newline).map fun back => d.offset - 1 - back

/-- The number of the column, from one: counted from the byte that ends the line before, or from the
start of the text. -/
def column (d : Diagnostic) : UInt32 :=
  match d.lastNewline? with
  | none => UInt32.ofNat d.offset + 1
  | some ending => UInt32.ofNat (d.offset - ending)

/-- The offset at which the line starts, counted back from the column. -/
def lineStart (d : Diagnostic) : Nat := d.offset - (d.column - 1).toNat

/-- The line of the text, without the byte that ends it. -/
def sourceLine (d : Diagnostic) : Bytes := (d.text.drop d.lineStart).takeWhile (· ≠ newline)

/-- A number of a line, set to the right of five places, or of as many as it needs. -/
def gutter (n : Nat) : Bytes :=
  List.replicate (5 - (decimal n).length) 32 ++ decimal n

/-- The line with the name, the place and the message. -/
def heading (d : Diagnostic) : Bytes :=
  d.name ++ utf8 ":" ++ decimal d.line.toNat ++ utf8 ":" ++ decimal d.column.toNat ++
    utf8 ": error: " ++ d.message ++ [newline]

/-- The line of the script under its number, and a caret below it. -/
def excerpt (d : Diagnostic) : Bytes :=
  gutter d.line.toNat ++ utf8 " | " ++ d.sourceLine ++ [newline] ++
    utf8 "      | " ++ List.replicate (d.column - 1).toNat 32 ++ utf8 "^" ++ [newline]

/-- The whole text shown to the user; a script without text has no line to show. -/
def format (d : Diagnostic) : Bytes :=
  if d.text = [] then d.heading else d.heading ++ d.excerpt

/-- The message up to its first zero byte. -/
def brief (d : Diagnostic) : Bytes := untilNul d.message

theorem offset_le (d : Diagnostic) : d.offset ≤ d.text.length := Nat.min_le_right _ _

end Diagnostic

/-- A tree that does not have the shape of a script, and where in the tree this shows. -/
structure ShapeError where
  message : Bytes
  path : Bytes
deriving DecidableEq

/-- The message after the path, if there is one, up to the first zero byte. -/
def ShapeError.brief (e : ShapeError) : Bytes :=
  untilNul (if e.path = [] then e.message else e.path ++ utf8 ": " ++ e.message)

end ShellOps
