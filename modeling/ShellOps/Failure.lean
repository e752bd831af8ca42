/-
# Why a script does not compile

A script is rejected with a message for its author, at a place of the script; or its tree is
malformed, which no script that was read correctly is. Both are causes here, and their wording
stands in one place.
-/
import ShellOps.Diagnostic
import ShellOps.Script

namespace ShellOps

/-- The special forms that bind names. -/
inductive BindingForm
  | var | set | del | fn
deriving DecidableEq

def BindingForm.name : BindingForm → String
  | var => "var"
  | set => "set"
  | del => "del"
  | fn => "fn"

/-- What the author of a script is told. -/
inductive Rejection
  | tooDeep
  | undefinedVariable (name : Name)
  | descriptorTooLarge (fd limit : Int)
  | badCommand
  | sigilNamesSpecial (sigil : UInt8)
  | expectedName (form : BindingForm)
  | noNames (form : BindingForm)
  | missingEquals
  | badFunction
  | badFunctionBody
  | notLocal (name : Name)
  | custom (message : Bytes)
deriving DecidableEq

def Rejection.message : Rejection → Bytes
  | tooDeep => utf8 "maximum nesting depth exceeded"
  | undefinedVariable n => utf8 "undefined variable $" ++ n
  | descriptorTooLarge fd limit =>
    utf8 "file descriptor too large: " ++ decimal fd ++ utf8 " (limit " ++ decimal limit ++ utf8 ")"
  | badCommand => utf8 "command must be a string or closure"
  | sigilNamesSpecial s => utf8 "sigil " ++ [s] ++ utf8 " names a special form"
  | expectedName f => utf8 "bad " ++ utf8 f.name ++ utf8 " form: expected a variable name"
  | noNames f => utf8 "bad " ++ utf8 f.name ++ utf8 " form: no variable names"
  | missingEquals => utf8 "bad set form: missing \"=\""
  | badFunction => utf8 "bad fn form: expected a name and a closure"
  | badFunctionBody => utf8 "bad fn form: body must be a closure literal"
  | notLocal n => utf8 "can only delete local variable $" ++ n
  | custom m => m

/-- How a tree, or an op built by hand, can be broken. -/
inductive Malformed
  | formWithoutCommand
  | missingWord
  | emptyWord
  | incompletePair
  | missingClosure
  | missingPipeline
  | unknownPrimary
  | missingArgument
  | negativeDescriptor (fd : Int)
  | negativeSource (fd : Int)
  | missingFilename
  | unknownRedirection
  | noSpecialOp (name : Name)
  | tableLengths
  | rootPopped
deriving DecidableEq

def Malformed.message : Malformed → Bytes
  | formWithoutCommand => utf8 "bad node type: form without command"
  | missingWord => utf8 "bad node type: null compound"
  | emptyWord => utf8 "bad node type: empty compound"
  | incompletePair => utf8 "bad node type: incomplete table pair"
  | missingClosure => utf8 "bad node type: null closure"
  | missingPipeline => utf8 "bad node type: null pipeline"
  | unknownPrimary => utf8 "bad node type: primary index 18446744073709551615"
  | missingArgument => utf8 "bad node type: null argument"
  | negativeDescriptor fd => utf8 "bad redirection: negative fd " ++ decimal fd
  | negativeSource fd => utf8 "bad redirection: negative source fd " ++ decimal fd
  | missingFilename => utf8 "bad redirection: missing filename"
  | unknownRedirection => utf8 "bad redirection type"
  | noSpecialOp n => utf8 "special form " ++ n ++ utf8 " produced no op"
  | tableLengths => utf8 "table keys and values differ in length"
  | rootPopped => utf8 "cannot pop the root scope"

/-- The message up to its first zero byte. -/
def Malformed.brief (m : Malformed) : Bytes := untilNul m.message

/-- Why compilation stopped. -/
inductive Failure
  | rejected (pos : Pos) (cause : Rejection)
  | malformed (cause : Malformed)
deriving DecidableEq

/-- What the author of `source` is told about a rejection at `pos`. -/
def Rejection.diagnose (r : Rejection) (source : Source) (pos : Pos) : Diagnostic :=
  ⟨source.name, source.text, pos, r.message⟩

end ShellOps
