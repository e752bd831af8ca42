/-
# Names in scope

A frame binds names to kinds. A scope stack is a frame for the code being compiled, on top of the
frames of the code around it. Looking a name up takes the nearest frame that binds it; when that is
not the innermost one, the name is noted in a capture set, which keeps the first kind it was given
for a name.
-/
import Std.Data.ExtTreeMap
import ShellOps.Bytes
import ShellOps.Ty

namespace ShellOps

/-- Values by name, in the order of the names' bytes. -/
abbrev NameMap (α : Type) := Std.ExtTreeMap Name α

theorem compare_name_beq_eq (n m : Name) : (compare n m == .eq) = decide (n = m) := by
  by_cases h : n = m <;> simp [h]

/-- The names bound by one piece of code. -/
abbrev Frame := NameMap Ty

/-- The names that a piece of code takes from the code around it. -/
abbrev CaptureSet := NameMap Ty

/-- The frame of the code being compiled, and the frames around it, the nearest first. -/
structure ScopeStack where
  innermost : Frame
  outer : List Frame

namespace ScopeStack

/-- The stack with the one frame `root`. -/
def ofRoot (root : Frame) : ScopeStack := ⟨root, []⟩

/-- The number of frames. -/
def depth (s : ScopeStack) : Nat := s.outer.length + 1

/-- Every frame, the innermost first. -/
def frames (s : ScopeStack) : List Frame := s.innermost :: s.outer

/-- A new empty frame on top. -/
def push (s : ScopeStack) : ScopeStack := ⟨∅, s.frames⟩

/-- The stack without its innermost frame; the root frame stays. -/
def pop? (s : ScopeStack) : Option ScopeStack :=
  match s.outer with
  | [] => none
  | f :: fs => some ⟨f, fs⟩

def bind (s : ScopeStack) (n : Name) (t : Ty) : ScopeStack :=
  { s with innermost := s.innermost.insert n t }

def unbind (s : ScopeStack) (n : Name) : ScopeStack :=
  { s with innermost := s.innermost.erase n }

/-- Whether the innermost frame binds the name. -/
def hasLocal (s : ScopeStack) (n : Name) : Bool := s.innermost.contains n

/-- The kind that the nearest frame around the innermost one gives the name. -/
def outerType? (s : ScopeStack) (n : Name) : Option Ty := s.outer.findSome? (·[n]?)

/-- Looks a name up: its kind in the nearest frame that binds it, and the capture set `caps`, to
which the name is added if that frame is not the innermost and the set does not hold it yet. -/
def resolve (s : ScopeStack) (n : Name) (caps : CaptureSet) : Option Ty × CaptureSet :=
  match s.innermost[n]? with
  | some t => (some t, caps)
  | none =>
    match s.outerType? n with
    | some t => (some t, caps.insertIfNew n t)
    | none => (none, caps)

theorem pop?_push (s : ScopeStack) : s.push.pop? = some s := rfl

theorem depth_push (s : ScopeStack) : s.push.depth = s.depth + 1 := rfl

theorem one_le_depth (s : ScopeStack) : 1 ≤ s.depth := Nat.le_add_left _ _

@[simp] theorem outer_bind (s : ScopeStack) (n : Name) (t : Ty) :
    (s.bind n t).outer = s.outer := rfl

@[simp] theorem outer_unbind (s : ScopeStack) (n : Name) : (s.unbind n).outer = s.outer := rfl

theorem hasLocal_bind (s : ScopeStack) (n m : Name) (t : Ty) :
    (s.bind n t).hasLocal m = (n = m || s.hasLocal m) := by
  simp [hasLocal, bind, Std.ExtTreeMap.contains_insert, compare_name_beq_eq]

theorem hasLocal_unbind (s : ScopeStack) (n m : Name) :
    (s.unbind n).hasLocal m = (n ≠ m && s.hasLocal m) := by
  simp [hasLocal, unbind, Std.ExtTreeMap.contains_erase, bne, compare_name_beq_eq]

/-- A name of the innermost frame is not captured. -/
theorem resolve_of_local {s : ScopeStack} {n : Name} {t : Ty} (caps : CaptureSet)
    (h : s.innermost[n]? = some t) : s.resolve n caps = (some t, caps) := by
  unfold resolve
  rw [h]

/-- A name that only an outer frame binds is captured. -/
theorem resolve_of_outer {s : ScopeStack} {n : Name} {t : Ty} (caps : CaptureSet)
    (hl : s.innermost[n]? = none) (h : s.outerType? n = some t) :
    s.resolve n caps = (some t, caps.insertIfNew n t) := by
  unfold resolve
  rw [hl, h]

/-- A name that no frame binds leaves the captures alone. -/
theorem resolve_of_unbound {s : ScopeStack} {n : Name} (caps : CaptureSet)
    (hl : s.innermost[n]? = none) (h : s.outerType? n = none) :
    s.resolve n caps = (none, caps) := by
  unfold resolve
  rw [hl, h]

end ScopeStack

/-- Passes the captures `inner` of a closure on to the code around it, whose stack is `s` and whose
captures are `caps`: a name bound in the innermost frame of `s` stops there, any other is added
unless it is there already. The number of names added comes with the result. -/
def CaptureSet.forward (inner : CaptureSet) (s : ScopeStack) (caps : CaptureSet) :
    CaptureSet × Nat :=
  inner.foldl (fun (acc, added) n t =>
    if s.hasLocal n || acc.contains n then (acc, added) else (acc.insert n t, added + 1)) (caps, 0)

end ShellOps
