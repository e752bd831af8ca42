/-
# Byte strings

Names, texts and messages are sequences of bytes, and nothing asks them to be valid UTF-8. They are
compared, sorted and cut byte by byte.
-/
namespace ShellOps

/-- A sequence of bytes. -/
abbrev Bytes := List UInt8

/-- The name of a variable, a command, a function or a script. -/
abbrev Name := Bytes

/-- A byte offset into the text of a script. -/
abbrev Pos := Nat

/-- The bytes of a text in UTF-8. -/
def utf8 (s : String) : Bytes := s.toList.flatMap String.utf8EncodeChar

/-- A whole number in decimal digits, with a minus sign if it is negative. -/
def decimal (n : Int) : Bytes := utf8 (toString n)

/-- What stands before the first zero byte. -/
def untilNul (b : Bytes) : Bytes := b.takeWhile (· ≠ 0)

/-- The byte that ends a line. -/
def newline : UInt8 := 10

/-- The name under which the function called `n` is bound. -/
def functionName (n : Name) : Name := utf8 "fn-" ++ n

/-! ### Cutting at a byte -/

/-- The pieces of `b` between the bytes equal to `sep`; there is one more piece than there are such
bytes. -/
def splitOnByte (sep : UInt8) : Bytes → List Bytes
  | [] => [[]]
  | c :: cs =>
    if c = sep then [] :: splitOnByte sep cs
    else match splitOnByte sep cs with
      | [] => [[c]]
      | p :: ps => (c :: p) :: ps

/-- The pieces of `b` joined by `sep`. -/
def joinWith (sep : Bytes) (bs : List Bytes) : Bytes := sep.intercalate bs

theorem splitOnByte_ne_nil (sep : UInt8) (b : Bytes) : splitOnByte sep b ≠ [] := by
  cases b with
  | nil => simp [splitOnByte]
  | cons c cs =>
    simp only [splitOnByte]
    split
    · simp
    · split <;> simp

end ShellOps
