/-
# The names that a tree mentions

Compiling looks names up that stand in the tree: variables, strings (as targets of `set` and `del`),
and the functions that a string or a sigil names as a command. Those are the names that a piece of a
script mentions; the parameters of a closure are not among them, since they are only ever bound. Like
the survey, the list of them is taken from the tree alone.

What a statement about trees assumes of a tree is an `Allowance`: which flaws it may have, and which
names it may mention.
-/
import ShellOps.Proofs.Survey

namespace ShellOps

/-- The name under which the command of a sigil is looked up. -/
def sigilMention (sigil : Option UInt8) : List Name := (sigil.map fun b => functionName [b]).toList

mutual

def mentionsInPipelines : List Pipeline → List Name
  | [] => []
  | p :: ps => mentionsInPipeline p ++ mentionsInPipelines ps

def mentionsInClosure : Closure → List Name
  | ⟨_, _, ⟨_, pipelines⟩⟩ => mentionsInPipelines pipelines

def mentionsInPipeline : Pipeline → List Name
  | ⟨_, forms⟩ => mentionsInForms forms

def mentionsInForms : List Form → List Name
  | [] => []
  | f :: fs => mentionsInForm f ++ mentionsInForms fs

def mentionsInForm : Form → List Name
  | ⟨_, command, _, args, redirections⟩ =>
    mentionsInWord? command ++ (mentionsInRedirections redirections ++ mentionsInWords args)

def mentionsInWord? : Option Word → List Name
  | none => []
  | some w => mentionsInWord w

def mentionsInRedirections : List Redirection → List Name
  | [] => []
  | r :: rs => mentionsInRedirection r ++ mentionsInRedirections rs

def mentionsInRedirection : Redirection → List Name
  | ⟨_, _, target⟩ => mentionsInTarget target

def mentionsInTarget : RedirectTarget → List Name
  | .file _ filename => mentionsInWord? filename
  | _ => []

def mentionsInWords : List (Option Word) → List Name
  | [] => []
  | w :: ws => mentionsInWord? w ++ mentionsInWords ws

def mentionsInWord : Word → List Name
  | ⟨_, sigil, parts⟩ => sigilMention sigil ++ mentionsInParts parts

def mentionsInParts : List Part → List Name
  | [] => []
  | p :: ps => mentionsInPart p ++ mentionsInParts ps

def mentionsInPart : Part → List Name
  | ⟨_, left, index⟩ => mentionsInPrimary left ++ mentionsInWord? index

def mentionsInPairs : List TablePair → List Name
  | [] => []
  | ⟨key, value⟩ :: rest => mentionsInWord? key ++ (mentionsInWord? value ++ mentionsInPairs rest)

/-- A string is mentioned as it is, and as the command that it names. -/
def mentionsInPrimary : Primary → List Name
  | .string _ text => [text, functionName text]
  | .variable _ name => [name]
  | .table _ items pairs => mentionsInWords items ++ mentionsInPairs pairs
  | .closure _ (some c) => mentionsInClosure c
  | .list _ _ items => mentionsInWords items
  | .chanCapture _ (some p) | .statusCapture _ (some p) => mentionsInPipeline p
  | .closure _ none | .chanCapture _ none | .statusCapture _ none | .unknown _ => []

end

/-- The text of a word that is nothing but a string is mentioned. -/
theorem plain_mem_mentions {w : Word} {n : Name} (h : w.plain? = some n) : n ∈ mentionsInWord w := by
  obtain ⟨pos, sigil, parts⟩ := w
  unfold Word.plain? Word.sole? at h
  split at h
  · next hsole =>
    split at hsole
    · next hsigil hparts =>
      obtain rfl : parts = _ := hparts
      obtain rfl := Option.some.inj hsole
      obtain rfl := Option.some.inj h
      simp [mentionsInWord, mentionsInParts, mentionsInPart, mentionsInPrimary]
    · cases hsole
  · cases h

/-! ### What a tree may hold -/

/-- Which flaws a tree may have, and which names it may mention. -/
structure Allowance where
  flaw : Malformed → Prop
  name : Name → Prop

namespace Allowance

/-- Any tree is allowed. -/
def all : Allowance := ⟨fun _ => True, fun _ => True⟩

/-- A piece of a script with the given survey and the given mentions is allowed. -/
structure Allows (A : Allowance) (v : Survey) (names : List Name) : Prop where
  flaws : v.FlawsAmong A.flaw
  names : ∀ n ∈ names, A.name n

theorem allows_all (v : Survey) (names : List Name) : all.Allows v names :=
  ⟨fun _ _ => trivial, fun _ _ => trivial⟩

section

variable {A : Allowance} {v w : Survey} {names names' : List Name}

theorem allows_append :
    A.Allows (v ++ w) (names ++ names') ↔ A.Allows v names ∧ A.Allows w names' := by
  constructor
  · rintro ⟨hflaws, hnames⟩
    rw [Survey.flawsAmong_append] at hflaws
    rw [List.forall_mem_append] at hnames
    exact ⟨⟨hflaws.1, hnames.1⟩, ⟨hflaws.2, hnames.2⟩⟩
  · rintro ⟨h, h'⟩
    exact ⟨Survey.flawsAmong_append.2 ⟨h.flaws, h'.flaws⟩, List.forall_mem_append.2 ⟨h.names, h'.names⟩⟩

theorem allows_node : A.Allows v.node names ↔ A.Allows v names :=
  ⟨fun h => ⟨h.flaws, h.names⟩, fun h => ⟨h.flaws, h.names⟩⟩

theorem allows_under {params : List Name} : A.Allows (v.under params) names ↔ A.Allows v names :=
  ⟨fun h => ⟨h.flaws, h.names⟩, fun h => ⟨h.flaws, h.names⟩⟩

/-- What is broken in a tree that is allowed, is allowed. -/
theorem Allows.flaw {m : Malformed} (h : A.Allows (.flaw m) names) : A.flaw m :=
  Survey.flawsAmong_flaw.1 h.flaws

end

end Allowance

end ShellOps
