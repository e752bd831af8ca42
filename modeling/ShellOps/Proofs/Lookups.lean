/-
# The look-ups that a script makes

What a script does with names can be said from its tree and the frames alone, without compiling it:
a variable, a target of `set` and the command word or sigil of a command are looked up, `var`, `del`
and `fn` change the innermost frame, and the code of a closure has a frame of its own. A `Walk` goes
through a piece of a script in this way and gives its look-ups in order, each with the frames it is
made in, and the frames that are left.

Look-ups at any depth of nesting are part of the walk: the code of a closure is walked where the
closure stands. A walk leaves the frames around the innermost one alone, so look-ups that end there
agree on what they find (`firstBelow_eq_some_iff`).
-/
import ShellOps.Proofs.Steps

namespace ShellOps

variable {F : Type}

/-- A look-up of a name, and the frames it is made in. -/
structure Lookup where
  name : Name
  scopes : ScopeStack

/-- The kind that a look-up finds, if it ends below the given level. -/
def Lookup.typeBelow (l : Lookup) (level : Nat) : Option Ty :=
  ShellOps.typeBelow l.scopes.frames l.name level

/-- The kind that the first look-up of `n` to end below the level finds there. -/
def firstBelow (ls : List Lookup) (n : Name) (level : Nat) : Option Ty :=
  ls.findSome? fun l => if l.name = n then l.typeBelow level else none

/-- Look-ups in the order they are made, and the frames that are left. -/
structure Trail where
  lookups : List Lookup
  scopes : ScopeStack

/-- What a piece of a script does with names, by the frames it starts in. The frames around the
innermost one stay as they are, and every look-up sees them. -/
structure Walk where
  trail : ScopeStack → Trail
  outer : ∀ s, (trail s).scopes.outer = s.outer
  frames : ∀ s, ∀ l ∈ (trail s).lookups, ∃ top, l.scopes.frames = top ++ s.outer

namespace Walk

def stay : Walk where
  trail s := ⟨[], s⟩
  outer _ := rfl
  frames _ _ hl := nomatch hl

def look (n : Name) : Walk where
  trail s := ⟨[⟨n, s⟩], s⟩
  outer _ := rfl
  frames s l hl := ⟨[s.innermost], by rw [List.mem_singleton.1 hl]; rfl⟩

def bind (n : Name) (t : Ty) : Walk where
  trail s := ⟨[], s.bind n t⟩
  outer _ := rfl
  frames _ _ hl := nomatch hl

def unbind (n : Name) : Walk where
  trail s := ⟨[], s.unbind n⟩
  outer _ := rfl
  frames _ _ hl := nomatch hl

def andThen (v w : Walk) : Walk where
  trail s := ⟨(v.trail s).lookups ++ (w.trail (v.trail s).scopes).lookups,
    (w.trail (v.trail s).scopes).scopes⟩
  outer s := by rw [w.outer, v.outer]
  frames s l hl := by
    rcases List.mem_append.1 hl with hl | hl
    · exact v.frames s l hl
    · obtain ⟨top, htop⟩ := w.frames _ l hl
      exact ⟨top, by rw [htop, v.outer]⟩

/-- Walks one after the other. -/
def all : List Walk → Walk
  | [] => stay
  | w :: ws => w.andThen (all ws)

/-- The walk that the frames at its start decide. -/
def choose (w : ScopeStack → Walk) : Walk where
  trail s := (w s).trail s
  outer s := (w s).outer s
  frames s := (w s).frames s

/-- In the code of a closure all the frames of the code around it are seen. -/
theorem frames_closure (params : List Name) (body : Walk) (s : ScopeStack) :
    ∀ l ∈ (body.trail (params.foldl (·.bind · .any) s.push)).lookups,
      ∃ top, l.scopes.frames = top ++ s.frames := by
  intro l hl
  obtain ⟨top, htop⟩ := body.frames _ l hl
  exact ⟨top, by rw [htop, ScopeStack.outer_foldl_bind, ScopeStack.outer_push]⟩

/-- The walk `body` in a new frame that binds the parameters; the frame is gone afterwards. -/
def within (params : List Name) (body : Walk) : Walk where
  trail s := ⟨(body.trail (params.foldl (·.bind · .any) s.push)).lookups, s⟩
  outer _ := rfl
  frames s l hl := by
    obtain ⟨top, htop⟩ := frames_closure params body s l hl
    exact ⟨top ++ [s.innermost], by rw [htop, List.append_assoc]; rfl⟩

theorem andThen_stay (v : Walk) : v.andThen stay = v := by
  simp [andThen, stay]

theorem stay_andThen (v : Walk) : stay.andThen v = v := by
  simp [andThen, stay]

theorem all_map_stay {β : Type} : ∀ bs : List β, all (bs.map fun _ => stay) = stay
  | [] => rfl
  | _ :: bs => by rw [List.map_cons, all, all_map_stay bs, stay_andThen]

end Walk

/-! ### Special forms -/

/-- The text of an argument that is nothing but a string. -/
def argName (w : Option Word) : Name := (w.bind Word.plain?).getD []

/-- The names before the first `=`. -/
def leadingNames (ws : List (Option Word)) : List Name :=
  (ws.takeWhile fun w => !isEquals w).map argName

/-- An argument of a form: the word, its walk, and the walk of the closure literal it starts
with. -/
structure ArgWalk where
  word : Option Word
  walk : Walk
  literal : Walk

/-- The names of an assignment. -/
def assignedNames (args : List ArgWalk) : List Name := leadingNames (args.map (·.word))

/-- The walk of the values of an assignment, which come after its names and the `=`. -/
def assignedValues (args : List ArgWalk) : Walk :=
  .all ((args.drop ((assignedNames args).length + 1)).map (·.walk))

/-- What each of the forms that bind names does. -/
def BindingForm.walk : BindingForm → List ArgWalk → Walk
  | .var, args => (assignedValues args).andThen (.all ((assignedNames args).map (.bind · .any)))
  | .set, args => (Walk.all ((assignedNames args).map .look)).andThen (assignedValues args)
  | .del, args => .all (args.map fun a => .unbind (argName a.word))
  | .fn, [name, body] => (Walk.bind (functionName (argName name.word)) .closure).andThen body.literal
  | .fn, _ => .stay

/-- The form that binds names with the given name. -/
def BindingForm.ofName? (n : Name) : Option BindingForm :=
  [BindingForm.var, .set, .del, .fn].find? (utf8 ·.name = n)

theorem BindingForm.ofName?_name (f : BindingForm) : ofName? (utf8 f.name) = some f := by
  cases f <;> decide

/-- The form that binds names which a command word stands for, unless a function of the script has
its name. -/
def bindingFormAt (r : Registry F) (s : ScopeStack) (command : Option Word) : Option BindingForm :=
  match command.bind Word.plain? with
  | none => none
  | some text =>
    if s.type? (functionName text) = some .closure ∨ r.findSpecial text = none then none
    else BindingForm.ofName? text

/-- The part of a form after its command and redirections. -/
def walkRest (form : Option BindingForm) (args : List ArgWalk) : Walk :=
  match form with
  | some f => f.walk args
  | none => .all (args.map (·.walk))

/-! ### Trees -/

mutual

def walkPipelines (r : Registry F) : List Pipeline → Walk
  | [] => .stay
  | p :: ps => (walkPipeline r p).andThen (walkPipelines r ps)

/-- A closure literal: its code in a frame of its own. -/
def walkClosure (r : Registry F) : Closure → Walk
  | ⟨_, params, ⟨_, pipelines⟩⟩ => .within params (walkPipelines r pipelines)

def walkPipeline (r : Registry F) : Pipeline → Walk
  | ⟨_, forms⟩ => walkForms r forms

def walkForms (r : Registry F) : List Form → Walk
  | [] => .stay
  | f :: fs => (walkForm r f).andThen (walkForms r fs)

/-- A form: its command, its redirections as they are written, then its arguments or what the form
that binds names makes of them. -/
def walkForm (r : Registry F) : Form → Walk
  | ⟨_, command, _, args, redirections⟩ => .choose fun s =>
    (walkCommand r command).andThen ((walkRedirections r redirections).andThen
      (walkRest (bindingFormAt r s command) (walkArgs r args)))

/-- A command word; the function that a string names is looked up. -/
def walkCommand (r : Registry F) : Option Word → Walk
  | some ⟨_, none, [⟨_, .string _ text, none⟩]⟩ => .look (functionName text)
  | some ⟨_, none, [⟨_, .closure _ (some c), none⟩]⟩ => walkClosure r c
  | _ => .stay

def walkArgs (r : Registry F) : List (Option Word) → List ArgWalk
  | [] => []
  | w :: ws => walkArg r w :: walkArgs r ws

def walkArg (r : Registry F) : Option Word → ArgWalk
  | none => ⟨none, .stay, .stay⟩
  | some w => ⟨some w, walkWord r w, walkLiteral r w⟩

def walkLiteral (r : Registry F) : Word → Walk
  | ⟨_, _, ⟨_, .closure _ (some c), _⟩ :: _⟩ => walkClosure r c
  | _ => .stay

def walkRedirections (r : Registry F) : List Redirection → Walk
  | [] => .stay
  | d :: ds => (walkRedirection r d).andThen (walkRedirections r ds)

def walkRedirection (r : Registry F) : Redirection → Walk
  | ⟨_, _, .file _ (some filename)⟩ => walkWord r filename
  | _ => .stay

def walkWords (r : Registry F) : List (Option Word) → Walk
  | some w :: ws => (walkWord r w).andThen (walkWords r ws)
  | _ => .stay

/-- A word; the function that its sigil names is looked up after its parts. -/
def walkWord (r : Registry F) : Word → Walk
  | ⟨_, none, parts⟩ => walkParts r parts
  | ⟨_, some b, parts⟩ => (walkParts r parts).andThen (.look (functionName [b]))

def walkParts (r : Registry F) : List Part → Walk
  | [] => .stay
  | p :: ps => (walkPart r p).andThen (walkParts r ps)

def walkPart (r : Registry F) : Part → Walk
  | ⟨_, left, none⟩ => walkPrimary r left
  | ⟨_, left, some index⟩ => (walkPrimary r left).andThen (walkWord r index)

def walkPairs (r : Registry F) : List TablePair → Walk
  | ⟨some key, some value⟩ :: rest =>
    (walkWord r key).andThen ((walkWord r value).andThen (walkPairs r rest))
  | _ => .stay

def walkPrimary (r : Registry F) : Primary → Walk
  | .variable _ name => .look name
  | .table _ items pairs => (walkWords r items).andThen (walkPairs r pairs)
  | .closure _ (some c) => walkClosure r c
  | .list _ _ items => walkWords r items
  | .chanCapture _ (some p) => walkPipeline r p
  | .statusCapture _ (some p) => walkPipeline r p
  | _ => .stay

end

/-! ### The first look-up below a level -/

theorem firstBelow_append (ls ms : List Lookup) (n : Name) (level : Nat) :
    firstBelow (ls ++ ms) n level = (firstBelow ls n level).or (firstBelow ms n level) :=
  List.findSome?_append

/-- Look-ups that see the same frames from a level down find the same kind below it. -/
theorem typeBelow_of_frames {l : Lookup} {n : Name} {t : Ty} {top fs : List Frame}
    (hname : l.name = n) (hframes : l.scopes.frames = top ++ fs)
    (h : l.typeBelow fs.length = some t) : fs.findSome? (·[n]?) = some t := by
  rw [Lookup.typeBelow, hframes, hname, typeBelow_append] at h
  cases htop : top.findSome? (·[n]?) with
  | some u => simp [htop] at h
  | none => simpa [htop] using h

/-- So any look-up below the level finds what the first one finds. -/
theorem firstBelow_eq_some_iff {ls : List Lookup} {fs : List Frame}
    (hframes : ∀ l ∈ ls, ∃ top, l.scopes.frames = top ++ fs) {n : Name} {t : Ty} :
    firstBelow ls n fs.length = some t ↔
      ∃ l ∈ ls, l.name = n ∧ l.typeBelow fs.length = some t := by
  constructor
  · intro h
    obtain ⟨l, hl, ht⟩ := List.exists_of_findSome?_eq_some h
    by_cases hn : l.name = n
    · exact ⟨l, hl, hn, by simpa [hn] using ht⟩
    · simp [hn] at ht
  · rintro ⟨l, hl, hn, ht⟩
    obtain ⟨top, htop⟩ := hframes l hl
    have hfs : fs.findSome? (·[n]?) = some t := typeBelow_of_frames hn htop ht
    cases hfirst : firstBelow ls n fs.length with
    | none =>
      have := List.findSome?_eq_none_iff.1 hfirst l hl
      simp [hn, ht] at this
    | some u =>
      obtain ⟨l', hl', hu⟩ := List.exists_of_findSome?_eq_some hfirst
      by_cases hn' : l'.name = n
      · obtain ⟨top', htop'⟩ := hframes l' hl'
        rw [if_pos hn'] at hu
        rw [← hfs, typeBelow_of_frames hn' htop' hu]
      · simp [hn'] at hu

/-- One level further in, the look-ups that end at the frame in between come on top. -/
theorem firstBelow_cons {ls : List Lookup} {f : Frame} {fs : List Frame}
    (hframes : ∀ l ∈ ls, ∃ top, l.scopes.frames = top ++ f :: fs) (n : Name) :
    firstBelow ls n fs.length =
      if f[n]?.isSome then none else firstBelow ls n (f :: fs).length := by
  have hone : ∀ l ∈ ls, (if l.name = n then l.typeBelow fs.length else none) =
      if f[n]?.isSome then none
      else if l.name = n then l.typeBelow (f :: fs).length else none := by
    intro l hl
    by_cases hn : l.name = n
    · obtain ⟨top, htop⟩ := hframes l hl
      have hinner := typeBelow_append top (f :: fs) n
      have houter := typeBelow_append (top ++ [f]) fs n
      rw [← List.append_cons, List.findSome?_append] at houter
      rw [if_pos hn, if_pos hn, Lookup.typeBelow, Lookup.typeBelow, htop, hn, hinner, houter]
      cases top.findSome? (·[n]?) <;> cases hf : f[n]? <;> simp [hf]
    · simp [hn]
  unfold firstBelow
  induction ls with
  | nil => simp
  | cons l ls ih =>
    rw [List.findSome?_cons, List.findSome?_cons, hone l List.mem_cons_self,
      ih (fun l' hl' => hframes l' (List.mem_cons_of_mem l hl'))
        (fun l' hl' => hone l' (List.mem_cons_of_mem l hl'))]
    cases f[n]? with
    | some t => rfl
    | none => simp

end ShellOps
