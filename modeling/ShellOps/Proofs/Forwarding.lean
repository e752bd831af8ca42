/-
# Passing on the captures of several closures

Passing the captures of a closure on to the code around it is a union that keeps the entries already
there and leaves out the names that the code around binds itself. The count that comes with it is by how
much the captures grew, so passing the same captures on twice adds nothing. Closures that stand side by
side pass theirs on one after the other: which names arrive does not depend on their order, and neither do
the kinds where the closures agree on them (`forward_left_biased_union`).
-/
import ShellOps.Proofs.Scope

namespace ShellOps

/-! ### The count -/

/-- One name more is one more in the count, and otherwise both stay. -/
theorem size_forwardOne (s : ScopeStack) (acc : CaptureSet × Nat) (n : Name) (t : Ty) :
    (forwardOne s acc n t).1.size + acc.2 = acc.1.size + (forwardOne s acc n t).2 := by
  unfold forwardOne
  by_cases hskip : (s.hasLocal n || acc.1.contains n) = true
  · rw [if_pos hskip]
  · have hnew : ¬ acc.1.contains n = true := fun h => hskip (by rw [h, Bool.or_true])
    rw [if_neg hskip]
    show (acc.1.insert n t).size + acc.2 = acc.1.size + (acc.2 + 1)
    rw [Std.ExtTreeMap.size_insert, if_neg hnew]
    omega

theorem size_foldl_forwardOne (s : ScopeStack) : ∀ (ps : List (Name × Ty)) (acc : CaptureSet × Nat),
    (ps.foldl (fun acc p => forwardOne s acc p.1 p.2) acc).1.size + acc.2 =
      acc.1.size + (ps.foldl (fun acc p => forwardOne s acc p.1 p.2) acc).2
  | [], _ => rfl
  | p :: ps, acc => by
    rw [List.foldl_cons]
    have hone := size_forwardOne s acc p.1 p.2
    have hrest := size_foldl_forwardOne s ps (forwardOne s acc p.1 p.2)
    omega

namespace CaptureSet

/-- **The count is the growth.** -/
theorem size_forward (inner : CaptureSet) (s : ScopeStack) (caps : CaptureSet) :
    (inner.forward s caps).1.size = caps.size + (inner.forward s caps).2 := by
  rw [forward_eq]
  exact size_foldl_forwardOne s inner.toList (caps, 0)

/-- Captures that were passed on are all there, so passing them on again adds nothing. -/
theorem forward_forward (inner : CaptureSet) (s : ScopeStack) (caps : CaptureSet) :
    inner.forward s (inner.forward s caps).1 = ((inner.forward s caps).1, 0) := by
  have hmap : (inner.forward s (inner.forward s caps).1).1 = (inner.forward s caps).1 := by
    apply Std.ExtTreeMap.ext_getElem?
    intro n
    rw [getElem?_forward, getElem?_forward, Option.or_assoc, Option.or_self]
  have hcount : (inner.forward s (inner.forward s caps).1).2 = 0 := by
    have hsize := size_forward inner s (inner.forward s caps).1
    rw [hmap] at hsize
    omega
  exact Prod.ext hmap hcount

/-! ### Several closures -/

/-- The captures of some closures, passed on one after the other to code whose stack is `s` and whose
captures are `caps`. -/
def forwardAll (inners : List CaptureSet) (s : ScopeStack) (caps : CaptureSet) : CaptureSet :=
  inners.foldl (fun acc inner => (inner.forward s acc).1) caps

/-- Of several closures that capture a name, the first decides its kind. -/
theorem getElem?_forwardAll (s : ScopeStack) (n : Name) : ∀ (inners : List CaptureSet) (caps : CaptureSet),
    (forwardAll inners s caps)[n]? =
      caps[n]?.or (if s.hasLocal n then none else inners.findSome? (·[n]?))
  | [], caps => by simp [forwardAll]
  | inner :: inners, caps => by
    show (forwardAll inners s (inner.forward s caps).1)[n]? = _
    rw [getElem?_forwardAll s n inners, getElem?_forward, Option.or_assoc]
    congr 1
    cases s.hasLocal n with
    | true => rfl
    | false =>
      rw [List.findSome?_cons]
      cases inner[n]? <;> rfl

/-- **The names that arrive.** Those that were there, and those that some closure captures and the
code around does not bind itself. -/
theorem mem_forwardAll {inners : List CaptureSet} {s : ScopeStack} {caps : CaptureSet} {n : Name} :
    n ∈ forwardAll inners s caps ↔ n ∈ caps ∨ n ∉ s.innermost ∧ ∃ inner ∈ inners, n ∈ inner := by
  have hlocal : s.hasLocal n = true ↔ n ∈ s.innermost := Std.ExtTreeMap.contains_iff_mem
  simp only [Std.ExtTreeMap.mem_iff_isSome_getElem? (t := forwardAll inners s caps),
    Std.ExtTreeMap.mem_iff_isSome_getElem? (t := caps), getElem?_forwardAll, Option.isSome_or,
    Bool.or_eq_true]
  apply or_congr_right
  by_cases hn : n ∈ s.innermost
  · simp [hlocal.2 hn, hn]
  · rw [if_neg (mt hlocal.1 hn), List.findSome?_isSome_iff]
    simp only [hn, not_false_eq_true, true_and, Std.ExtTreeMap.mem_iff_isSome_getElem?]

/-- Two capture sets give the names that they share the same kinds. -/
def Agrees (a b : CaptureSet) : Prop :=
  ∀ (n : Name) (t u : Ty), a[n]? = some t → b[n]? = some u → t = u

/-- Where the closures agree, any of them decides the kind of a name. -/
theorem findSome?_eq_some_iff_of_agrees {inners : List CaptureSet}
    (hagree : ∀ a ∈ inners, ∀ b ∈ inners, a.Agrees b) (n : Name) (t : Ty) :
    inners.findSome? (·[n]?) = some t ↔ ∃ inner ∈ inners, inner[n]? = some t := by
  constructor
  · exact List.exists_of_findSome?_eq_some
  · rintro ⟨inner, hinner, ht⟩
    cases hfound : inners.findSome? (·[n]?) with
    | none =>
      rw [List.findSome?_eq_none_iff.1 hfound inner hinner] at ht
      cases ht
    | some u =>
      obtain ⟨first, hfirst, hu⟩ := List.exists_of_findSome?_eq_some hfound
      rw [hagree first hfirst inner hinner n u t hu ht]

theorem forwardAll_perm {inners inners' : List CaptureSet} (hperm : inners.Perm inners')
    (hagree : ∀ a ∈ inners, ∀ b ∈ inners, a.Agrees b) (s : ScopeStack) (caps : CaptureSet) :
    forwardAll inners s caps = forwardAll inners' s caps := by
  have hagree' : ∀ a ∈ inners', ∀ b ∈ inners', a.Agrees b :=
    fun a ha b hb => hagree a (hperm.mem_iff.2 ha) b (hperm.mem_iff.2 hb)
  apply Std.ExtTreeMap.ext_getElem?
  intro n
  have hkind : inners.findSome? (·[n]?) = inners'.findSome? (·[n]?) := by
    apply Option.ext
    intro t
    rw [findSome?_eq_some_iff_of_agrees hagree, findSome?_eq_some_iff_of_agrees hagree']
    simp only [hperm.mem_iff]
  rw [getElem?_forwardAll, getElem?_forwardAll, hkind]

end CaptureSet

/-- **Passing captures on is a filtered, left-biased union.** The captures that were there keep their
kinds, and a name comes in with its kind in `inner` if it is new and the innermost frame does not bind it.
The count is the growth, and a second time nothing happens. For several closures the order matters neither
to the names nor, where they agree on the kinds, to the captures. -/
theorem forward_left_biased_union (s : ScopeStack) (inner parent : CaptureSet) :
    (∀ n t, (inner.forward s parent).1[n]? = some t ↔
      parent[n]? = some t ∨ parent[n]? = none ∧ n ∉ s.innermost ∧ inner[n]? = some t) ∧
    (inner.forward s parent).1.size = parent.size + (inner.forward s parent).2 ∧
    inner.forward s (inner.forward s parent).1 = ((inner.forward s parent).1, 0) ∧
    ∀ inners inners' : List CaptureSet, inners.Perm inners' →
      (∀ n, n ∈ CaptureSet.forwardAll inners s parent ↔ n ∈ CaptureSet.forwardAll inners' s parent) ∧
      ((∀ a ∈ inners, ∀ b ∈ inners, a.Agrees b) →
        CaptureSet.forwardAll inners s parent = CaptureSet.forwardAll inners' s parent) := by
  refine ⟨fun n t => ?_, inner.size_forward s parent, inner.forward_forward s parent,
    fun inners inners' hperm => ⟨fun n => ?_, fun hagree => ?_⟩⟩
  · have hlocal : s.hasLocal n = true ↔ n ∈ s.innermost := Std.ExtTreeMap.contains_iff_mem
    rw [CaptureSet.getElem?_forward, Option.or_eq_some_iff]
    by_cases hn : n ∈ s.innermost
    · simp [hlocal.2 hn, hn]
    · simp [mt hlocal.1 hn, hn]
  · simp only [CaptureSet.mem_forwardAll, hperm.mem_iff]
  · exact CaptureSet.forwardAll_perm hperm hagree s parent

/-- The captures of two closures, one in `x` and `z` and one in `x` and `y`. -/
def siblingCaptures : List CaptureSet :=
  [(∅ : CaptureSet).insert (utf8 "x") .any |>.insert (utf8 "z") .any,
    (∅ : CaptureSet).insert (utf8 "x") .any |>.insert (utf8 "y") .closure]

/-- Code that binds `z`. -/
def bindingZ : ScopeStack := (ScopeStack.ofRoot ∅).push.bind (utf8 "z") .any

theorem forward_left_biased_union_siblings :
    siblingCaptures.Perm siblingCaptures.reverse ∧
    (∀ a ∈ siblingCaptures, ∀ b ∈ siblingCaptures, a.Agrees b) ∧
    CaptureSet.forwardAll siblingCaptures bindingZ ∅ =
      CaptureSet.forwardAll siblingCaptures.reverse bindingZ ∅ ∧
    (CaptureSet.forwardAll siblingCaptures bindingZ ∅).toList =
      [(utf8 "x", .any), (utf8 "y", .closure)] := by
  have hperm : siblingCaptures.Perm siblingCaptures.reverse := (List.reverse_perm _).symm
  -- both sets give `y` the kind of a closure and any other name the kind of any value
  have hkind : ∀ a ∈ siblingCaptures, ∀ (n : Name) (t : Ty), a[n]? = some t →
      t = if n = utf8 "y" then .closure else .any := by
    have hx : utf8 "x" ≠ utf8 "y" := by decide
    have hz : utf8 "z" ≠ utf8 "y" := by decide
    intro a ha n t ht
    simp only [siblingCaptures, List.mem_cons, List.not_mem_nil, or_false] at ha
    rcases ha with rfl | rfl <;> simp only [Std.ExtTreeMap.getElem?_insert] at ht <;> grind
  have hagree : ∀ a ∈ siblingCaptures, ∀ b ∈ siblingCaptures, a.Agrees b :=
    fun a ha b hb n t u ht hu => (hkind a ha n t ht).trans (hkind b hb n u hu).symm
  obtain ⟨-, -, -, hall⟩ := forward_left_biased_union bindingZ ∅ ∅
  exact ⟨hperm, hagree, (hall siblingCaptures siblingCaptures.reverse hperm).2 hagree, by decide +kernel⟩

end ShellOps
