/-
# What a tree holds

A survey of a piece of a script, taken from its tree alone: how many nodes it has, what is broken in
it, and which variables it refers to. References are listed in the order in which they are compiled
(in a form the command, the redirections, then the arguments; in a table the items, then each key
before its value), each with the parameters of the closure literals around it.

A script is well shaped if its survey lists no flaw. An argument that is missing shows in one of two
ways, depending on whether the command is a special form, so it counts as both.
-/
import ShellOps.Failure

namespace ShellOps

/-- A variable that stands somewhere in a script: its name, its place, and the parameters of the
closure literals around it. -/
structure Reference where
  name : Name
  pos : Pos
  params : List Name := []
deriving DecidableEq

/-- The reference, seen from outside a closure literal with the given parameters. -/
def Reference.under (params : List Name) (r : Reference) : Reference :=
  { r with params := params ++ r.params }

/-- What a piece of a script holds. The nodes are its pipelines, forms, words, primaries and
closures. -/
structure Survey where
  nodes : Nat := 0
  flaws : List Malformed := []
  references : List Reference := []

namespace Survey

instance : Append Survey :=
  ⟨fun v w => ⟨v.nodes + w.nodes, v.flaws ++ w.flaws, v.references ++ w.references⟩⟩

/-- Nothing but a flaw. -/
def flaw (m : Malformed) : Survey := { flaws := [m] }

/-- One node around what was surveyed. -/
def node (v : Survey) : Survey := { v with nodes := v.nodes + 1 }

/-- A closure literal with the given parameters around what was surveyed. -/
def under (params : List Name) (v : Survey) : Survey :=
  { v with references := v.references.map (·.under params) }

/-- Nothing is broken but in the given ways. -/
def FlawsAmong (allowed : Malformed → Prop) (v : Survey) : Prop := ∀ m ∈ v.flaws, allowed m

section

variable {allowed : Malformed → Prop} {v w : Survey}

@[simp] theorem flawsAmong_append :
    (v ++ w).FlawsAmong allowed ↔ v.FlawsAmong allowed ∧ w.FlawsAmong allowed :=
  List.forall_mem_append

@[simp] theorem flawsAmong_node : v.node.FlawsAmong allowed ↔ v.FlawsAmong allowed := .rfl

@[simp] theorem flawsAmong_under {params : List Name} :
    (v.under params).FlawsAmong allowed ↔ v.FlawsAmong allowed := .rfl

@[simp] theorem flawsAmong_flaw {m : Malformed} : (flaw m).FlawsAmong allowed ↔ allowed m :=
  List.forall_mem_singleton

end

end Survey

/-- The descriptor of a redirection. -/
def surveyDescriptor (fd : Int) : Survey := if fd < 0 then .flaw (.negativeDescriptor fd) else {}

/-- The descriptor that a redirection copies. -/
def surveySource (fd : Int) : Survey := if fd < 0 then .flaw (.negativeSource fd) else {}

mutual

def surveyPipelines : List Pipeline → Survey
  | [] => {}
  | p :: ps => surveyPipeline p ++ surveyPipelines ps

def surveyClosure : Closure → Survey
  | ⟨_, params, ⟨_, pipelines⟩⟩ => (surveyPipelines pipelines).node.under params

def surveyPipeline : Pipeline → Survey
  | ⟨_, forms⟩ => (surveyForms forms).node

def surveyForms : List Form → Survey
  | [] => {}
  | f :: fs => surveyForm f ++ surveyForms fs

def surveyForm : Form → Survey
  | ⟨_, command, _, args, redirections⟩ =>
    (surveyCommand command ++ (surveyRedirections redirections ++
      surveyWords [.missingWord, .missingArgument] args)).node

def surveyCommand : Option Word → Survey
  | none => .flaw .formWithoutCommand
  | some w => surveyWord w

def surveyRedirections : List Redirection → Survey
  | [] => {}
  | r :: rs => surveyRedirection r ++ surveyRedirections rs

def surveyRedirection : Redirection → Survey
  | ⟨_, fd, target⟩ => surveyDescriptor fd ++ surveyTarget target

def surveyTarget : RedirectTarget → Survey
  | .close => {}
  | .dup source => surveySource source
  | .file _ none => .flaw .missingFilename
  | .file _ (some filename) => surveyWord filename
  | .unknown => .flaw .unknownRedirection

/-- A list of words, where a missing one shows as any of the given flaws. -/
def surveyWords (missing : List Malformed) : List (Option Word) → Survey
  | [] => {}
  | none :: ws => { flaws := missing } ++ surveyWords missing ws
  | some w :: ws => surveyWord w ++ surveyWords missing ws

def surveyWord : Word → Survey
  | ⟨_, _, parts⟩ => ((if parts.isEmpty then .flaw .emptyWord else {}) ++ surveyParts parts).node

def surveyParts : List Part → Survey
  | [] => {}
  | p :: ps => surveyPart p ++ surveyParts ps

def surveyPart : Part → Survey
  | ⟨_, left, none⟩ => surveyPrimary left
  | ⟨_, left, some index⟩ => surveyPrimary left ++ surveyWord index

def surveyPairs : List TablePair → Survey
  | [] => {}
  | ⟨some key, some value⟩ :: rest => surveyWord key ++ (surveyWord value ++ surveyPairs rest)
  | ⟨none, _⟩ :: rest | ⟨some _, none⟩ :: rest => .flaw .incompletePair ++ surveyPairs rest

def surveyPrimary : Primary → Survey
  | .string _ _ => Survey.node {}
  | .variable pos name => Survey.node { references := [⟨name, pos, []⟩] }
  | .table _ items pairs => (surveyWords [.missingWord] items ++ surveyPairs pairs).node
  | .closure _ none => (Survey.flaw .missingClosure).node
  | .closure _ (some c) => (surveyClosure c).node
  | .list _ _ items => (surveyWords [.missingWord] items).node
  | .chanCapture _ none | .statusCapture _ none => (Survey.flaw .missingPipeline).node
  | .chanCapture _ (some p) | .statusCapture _ (some p) => (surveyPipeline p).node
  | .unknown _ => (Survey.flaw .unknownPrimary).node

end

/-- Nothing in the script is missing, empty, negative or of a kind that is not known. -/
def Chunk.WellShaped (c : Chunk) : Prop := (surveyPipelines c.pipelines).flaws = []

instance (c : Chunk) : Decidable c.WellShaped := inferInstanceAs (Decidable (_ = []))

end ShellOps
