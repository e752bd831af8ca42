/-
# Builtins

A registry holds the builtin functions and the special forms by name. Registering a name again
replaces its entry; an entry that was looked up before stays what it was.
-/
import ShellOps.Special.Form

namespace ShellOps

variable {F : Type}

/-- The builtin functions and special forms. `next` is the number of the next entry. -/
structure Registry (F : Type) where
  functions : NameMap (Builtin F) := ∅
  specials : NameMap (Builtin (SpecialForm F)) := ∅
  next : Nat := 0

namespace Registry

def empty : Registry F := {}

def registerFunction (r : Registry F) (n : Name) (body : F) : Registry F :=
  { r with functions := r.functions.insert n ⟨r.next, n, body⟩, next := r.next + 1 }

def registerSpecial (r : Registry F) (n : Name) (body : SpecialForm F) : Registry F :=
  { r with specials := r.specials.insert n ⟨r.next, n, body⟩, next := r.next + 1 }

def unregisterFunction (r : Registry F) (n : Name) : Registry F :=
  { r with functions := r.functions.erase n }

def unregisterSpecial (r : Registry F) (n : Name) : Registry F :=
  { r with specials := r.specials.erase n }

/-- Without any entry; numbers that were used are not used again. -/
def clear (r : Registry F) : Registry F := { r with functions := ∅, specials := ∅ }

def findFunction (r : Registry F) (n : Name) : Option (Builtin F) := r.functions[n]?

def findSpecial (r : Registry F) (n : Name) : Option (Builtin (SpecialForm F)) := r.specials[n]?

/-- The names of the functions, sorted. -/
def functionNames (r : Registry F) : List Name := r.functions.keys

/-- The names of the special forms, sorted. -/
def specialNames (r : Registry F) : List Name := r.specials.keys

def functionCount (r : Registry F) : Nat := r.functions.size

def specialCount (r : Registry F) : Nat := r.specials.size

/-- Whether an entry that was looked up before is the one its name has now. -/
def holdsFunction (r : Registry F) (entry : Builtin F) : Bool :=
  (r.findFunction entry.name).any (·.id = entry.id)

/-- Whether an entry that was looked up before is the one its name has now. -/
def holdsSpecial (r : Registry F) (entry : Builtin (SpecialForm F)) : Bool :=
  (r.findSpecial entry.name).any (·.id = entry.id)

/-! ### What a look-up finds -/

theorem findFunction_registerFunction (r : Registry F) (n m : Name) (body : F) :
    (r.registerFunction n body).findFunction m =
      if n = m then some ⟨r.next, n, body⟩ else r.findFunction m := by
  simp [findFunction, registerFunction, Std.ExtTreeMap.getElem?_insert]

theorem findSpecial_registerSpecial (r : Registry F) (n m : Name) (body : SpecialForm F) :
    (r.registerSpecial n body).findSpecial m =
      if n = m then some ⟨r.next, n, body⟩ else r.findSpecial m := by
  simp [findSpecial, registerSpecial, Std.ExtTreeMap.getElem?_insert]

theorem findFunction_unregisterFunction (r : Registry F) (n m : Name) :
    (r.unregisterFunction n).findFunction m = if n = m then none else r.findFunction m := by
  simp [findFunction, unregisterFunction, Std.ExtTreeMap.getElem?_erase]

theorem findSpecial_unregisterSpecial (r : Registry F) (n m : Name) :
    (r.unregisterSpecial n).findSpecial m = if n = m then none else r.findSpecial m := by
  simp [findSpecial, unregisterSpecial, Std.ExtTreeMap.getElem?_erase]

@[simp] theorem findSpecial_registerFunction (r : Registry F) (n m : Name) (body : F) :
    (r.registerFunction n body).findSpecial m = r.findSpecial m := rfl

@[simp] theorem findFunction_registerSpecial (r : Registry F) (n m : Name) (body : SpecialForm F) :
    (r.registerSpecial n body).findFunction m = r.findFunction m := rfl

end Registry

end ShellOps
