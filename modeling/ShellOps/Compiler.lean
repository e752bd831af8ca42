/-
# Compiling a whole script

A script compiles to an op, or its author is told why it does not. A tree that no script gives is
no answer for the author: it is reported apart. The statistics come with the answer in both cases,
and a compiler that is asked to reports them.
-/
import ShellOps.Compile.Basic

namespace ShellOps

variable {F : Type}

/-- Builtins to compile against, and how. -/
structure Compiler (F : Type) where
  registry : Registry F
  options : Options

/-- An op or a diagnostic, and what was compiled until then. -/
structure CompileResult (F : Type) where
  outcome : Except Diagnostic (ValuesOp F)
  stats : Stats

def CompileResult.isOk (r : CompileResult F) : Bool := r.outcome.isOk

namespace Compiler

/-- Compiles `chunk`, read from `source`, with the names of `root` in scope. -/
def compile (c : Compiler F) (source : Source) (chunk : Chunk) (root : Frame) :
    Except Malformed (CompileResult F) :=
  match (compileChunk ⟨c.registry, c.options, source⟩ chunk).run (CompileState.ofRoot root) with
  | (.ok op, s) => .ok ⟨.ok op, s.stats⟩
  | (.error (.rejected pos cause), s) => .ok ⟨.error (cause.diagnose source pos), s.stats⟩
  | (.error (.malformed cause), _) => .error cause

/-- What is logged about a result, if the options ask for a log. -/
def log (c : Compiler F) (source : Source) (r : CompileResult F) : Bytes :=
  if c.options.debug then
    utf8 "[" ++ source.name ++ utf8 "] " ++ utf8 (if r.isOk then "compiled" else "failed") ++
      [newline] ++ r.stats.render
  else []

end Compiler

end ShellOps
