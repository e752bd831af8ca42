/-
# The forms of a tree

The forms that a piece of a script holds, in a form's own words too. Those in the code of closure
literals run only when the closure is called, so they are left out unless asked for (`deep`): the
forms of a word that is not walked deep are the ones that run when the word is evaluated, and they
all come from its captures.
-/
import ShellOps.Compile.Basic

namespace ShellOps

mutual

def formsInPipelines (deep : Bool) : List Pipeline → List Form
  | [] => []
  | p :: ps => formsInPipeline deep p ++ formsInPipelines deep ps

def formsInClosure (deep : Bool) : Closure → List Form
  | ⟨_, _, ⟨_, pipelines⟩⟩ => if deep then formsInPipelines deep pipelines else []

def formsInPipeline (deep : Bool) : Pipeline → List Form
  | ⟨_, forms⟩ => formsInForms deep forms

def formsInForms (deep : Bool) : List Form → List Form
  | [] => []
  | f :: fs => formsInForm deep f ++ formsInForms deep fs

/-- The form itself, and those in its command, its redirections and its arguments. -/
def formsInForm (deep : Bool) : Form → List Form
  | ⟨pos, command, argsPos, args, redirections⟩ =>
    [⟨pos, command, argsPos, args, redirections⟩] ++ (formsInWord? deep command ++
      (formsInRedirections deep redirections ++ formsInWords deep args))

def formsInWord? (deep : Bool) : Option Word → List Form
  | none => []
  | some w => formsInWord deep w

def formsInRedirections (deep : Bool) : List Redirection → List Form
  | [] => []
  | r :: rs => formsInRedirection deep r ++ formsInRedirections deep rs

def formsInRedirection (deep : Bool) : Redirection → List Form
  | ⟨_, _, .file _ (some filename)⟩ => formsInWord deep filename
  | _ => []

def formsInWords (deep : Bool) : List (Option Word) → List Form
  | [] => []
  | w :: ws => formsInWord? deep w ++ formsInWords deep ws

def formsInWord (deep : Bool) : Word → List Form
  | ⟨_, _, parts⟩ => formsInParts deep parts

def formsInParts (deep : Bool) : List Part → List Form
  | [] => []
  | p :: ps => formsInPart deep p ++ formsInParts deep ps

def formsInPart (deep : Bool) : Part → List Form
  | ⟨_, left, index⟩ => formsInPrimary deep left ++ formsInWord? deep index

def formsInPairs (deep : Bool) : List TablePair → List Form
  | [] => []
  | ⟨key, value⟩ :: rest =>
    formsInWord? deep key ++ (formsInWord? deep value ++ formsInPairs deep rest)

def formsInPrimary (deep : Bool) : Primary → List Form
  | .table _ items pairs => formsInWords deep items ++ formsInPairs deep pairs
  | .closure _ (some c) => formsInClosure deep c
  | .list _ _ items => formsInWords deep items
  | .chanCapture _ (some p) => formsInPipeline deep p
  | .statusCapture _ (some p) => formsInPipeline deep p
  | _ => []

end

/-- The command word of the form is the name of the binding form `b`. A function of the script can
have that name too, so the form need not be one. -/
def Form.Is (f : Form) (b : BindingForm) : Prop := f.command.bind Word.plain? = some (utf8 b.name)

instance (f : Form) (b : BindingForm) : Decidable (f.Is b) := inferInstanceAs (Decidable (_ = _))

/-- The form may change which names are bound. -/
def Form.Rebinds (f : Form) : Prop := f.Is .var ∨ f.Is .del ∨ f.Is .fn

instance (f : Form) : Decidable f.Rebinds := inferInstanceAs (Decidable (_ ∨ _))

/-- No file name of the form's redirections rebinds a name when it is evaluated. -/
def Form.QuietFilenames (f : Form) : Prop :=
  ∀ g ∈ formsInRedirections false f.redirections, ¬ g.Rebinds

instance (f : Form) : Decidable f.QuietFilenames := inferInstanceAs (Decidable (∀ _ ∈ _, _))

theorem mem_formsInForm (deep : Bool) (f : Form) : f ∈ formsInForm deep f := by
  obtain ⟨pos, command, argsPos, args, redirections⟩ := f
  simp [formsInForm]

theorem args_subset_formsInForm (deep : Bool) (f : Form) :
    formsInWords deep f.args ⊆ formsInForm deep f := by
  obtain ⟨pos, command, argsPos, args, redirections⟩ := f
  intro g hg
  simp only [formsInForm, List.mem_append]
  exact .inr (.inr (.inr hg))

theorem redirections_subset_formsInForm (deep : Bool) (f : Form) :
    formsInRedirections deep f.redirections ⊆ formsInForm deep f := by
  obtain ⟨pos, command, argsPos, args, redirections⟩ := f
  intro g hg
  simp only [formsInForm, List.mem_append]
  exact .inr (.inr (.inl hg))

/-- A piece of a script, whose forms are given, fits a condition on its forms and a list of them:
each form meets the condition (those in closures too, if `deep`), and those that run are listed. -/
structure Fits (deep : Bool) (good : Form → Prop) (fs : List Form) (forms : Bool → List Form) :
    Prop where
  good : ∀ f ∈ forms deep, good f
  listed : forms false ⊆ fs

section

variable {deep : Bool} {good : Form → Prop} {fs : List Form}

theorem fits_append {forms forms' : Bool → List Form} :
    (Fits deep good fs fun d => forms d ++ forms' d) ↔
      Fits deep good fs forms ∧ Fits deep good fs forms' := by
  constructor
  · rintro ⟨hgood, hlisted⟩
    rw [List.forall_mem_append] at hgood
    rw [List.append_subset] at hlisted
    exact ⟨⟨hgood.1, hlisted.1⟩, ⟨hgood.2, hlisted.2⟩⟩
  · rintro ⟨h, h'⟩
    exact ⟨List.forall_mem_append.2 ⟨h.good, h'.good⟩, List.append_subset.2 ⟨h.listed, h'.listed⟩⟩

/-- The list of forms can be exchanged for any that holds those that run. -/
theorem Fits.relist {forms : Bool → List Form} (h : Fits deep good fs forms) :
    Fits deep good (forms false) forms := ⟨h.good, List.Subset.refl _⟩

end

end ShellOps
