/-
# Where a look-up ends

A look-up goes through the frames from the innermost outwards and ends at the first that binds the
name. The frames are numbered from the bottom: the root frame has level 0. The capture set of the
code being compiled gains a name only when its look-up ends below the innermost frame, and passing
the captures of a closure on to the code around it adds those that the code around it does not bind
itself.
-/
import ShellOps.Scope

namespace ShellOps

/-! ### Levels -/

/-- The level of the nearest of some frames that binds a name, and the kind it gives the name. The
frames are listed from the innermost out, so a frame's level is the number of frames after it. -/
def locate (n : Name) : List Frame → Option (Nat × Ty)
  | [] => none
  | f :: fs =>
    match f[n]? with
    | some t => some (fs.length, t)
    | none => locate n fs

/-- The kind of a name whose look-up ends below the given level. -/
def typeBelow (fs : List Frame) (n : Name) (level : Nat) : Option Ty :=
  match locate n fs with
  | some (k, t) => if k < level then some t else none
  | none => none

theorem typeBelow_eq_some_iff {fs : List Frame} {n : Name} {level : Nat} {t : Ty} :
    typeBelow fs n level = some t ↔ ∃ k, locate n fs = some (k, t) ∧ k < level := by
  unfold typeBelow
  cases locate n fs with
  | none => simp
  | some found =>
    show (if found.1 < level then some found.2 else none) = some t ↔ _
    constructor
    · intro h
      obtain ⟨hlt, hkind⟩ := Option.ite_none_right_eq_some.1 h
      obtain rfl := Option.some.inj hkind
      exact ⟨found.1, rfl, hlt⟩
    · rintro ⟨k, hk, hlt⟩
      obtain rfl := Option.some.inj hk
      exact if_pos hlt

theorem locate_append (n : Name) (fs : List Frame) : ∀ top : List Frame,
    locate n (top ++ fs) = match top.findSome? (·[n]?) with
      | some _ => locate n (top ++ fs)
      | none => locate n fs
  | [] => rfl
  | f :: top => by
    cases hf : f[n]? with
    | some t => simp [hf]
    | none => simpa [locate, hf, List.findSome?_cons] using locate_append n fs top

theorem length_le_of_locate_append {n : Name} {fs : List Frame} {k : Nat} {t u : Ty} :
    ∀ {top : List Frame}, top.findSome? (·[n]?) = some u → locate n (top ++ fs) = some (k, t) →
      fs.length ≤ k
  | [], hu, _ => by simp at hu
  | f :: top, hu, hk => by
    cases hf : f[n]? with
    | some t' =>
      simp only [List.cons_append, locate, hf, List.length_append, Option.some.injEq,
        Prod.mk.injEq] at hk
      omega
    | none =>
      rw [List.findSome?_cons, hf] at hu
      rw [List.cons_append, locate, hf] at hk
      exact length_le_of_locate_append hu hk

theorem locate_eq_some_lt {n : Name} {k : Nat} {t : Ty} : ∀ {fs : List Frame},
    locate n fs = some (k, t) → k < fs.length ∧ fs.findSome? (·[n]?) = some t
  | [], h => by simp [locate] at h
  | f :: fs, h => by
    cases hf : f[n]? with
    | some t' =>
      simp only [locate, hf, Option.some.injEq, Prod.mk.injEq] at h
      simp [hf, h.2, ← h.1]
    | none =>
      rw [locate, hf] at h
      obtain ⟨hk, ht⟩ := locate_eq_some_lt h
      exact ⟨by simp only [List.length_cons]; omega, by rw [List.findSome?_cons, hf, ht]⟩

theorem locate_eq_none_iff {n : Name} : ∀ {fs : List Frame},
    locate n fs = none ↔ fs.findSome? (·[n]?) = none
  | [] => by simp [locate]
  | f :: fs => by
    cases hf : f[n]? with
    | some t => simp [locate, hf]
    | none => simp only [locate, hf, List.findSome?_cons, @locate_eq_none_iff n fs]

/-- **What lies below a level.** A look-up through `top` and then `fs` ends below the level where
`fs` starts exactly when nothing in `top` binds the name, and then `fs` decides the kind. -/
theorem typeBelow_append (top fs : List Frame) (n : Name) :
    typeBelow (top ++ fs) n fs.length =
      match top.findSome? (·[n]?) with
      | some _ => none
      | none => fs.findSome? (·[n]?) := by
  cases hu : top.findSome? (·[n]?) with
  | some u =>
    simp only [typeBelow]
    cases hk : locate n (top ++ fs) with
    | none => rfl
    | some kt => simp [Nat.not_lt.2 (length_le_of_locate_append hu hk)]
  | none =>
    have hl : locate n (top ++ fs) = locate n fs := by rw [locate_append, hu]
    simp only [typeBelow, hl]
    cases hk : locate n fs with
    | none => exact (locate_eq_none_iff.1 hk).symm
    | some kt =>
      obtain ⟨hlt, ht⟩ := locate_eq_some_lt hk
      simp [hlt, ht]

namespace ScopeStack

/-- The kind that the nearest frame gives the name. -/
def type? (s : ScopeStack) (n : Name) : Option Ty := s.frames.findSome? (·[n]?)

theorem type?_eq (s : ScopeStack) (n : Name) : s.type? n = s.innermost[n]?.or (s.outerType? n) := by
  unfold type? frames outerType?
  rw [List.findSome?_cons]
  cases s.innermost[n]? <;> rfl

theorem type?_eq_some_iff {s : ScopeStack} {n : Name} {t : Ty} :
    s.type? n = some t ↔ ∃ k, locate n s.frames = some (k, t) := by
  unfold type?
  cases hfound : locate n s.frames with
  | none => simp [locate_eq_none_iff.1 hfound]
  | some found =>
    rw [(locate_eq_some_lt hfound).2]
    simp [Prod.ext_iff]

theorem type?_bind_of_ne (s : ScopeStack) {n m : Name} (t : Ty) (h : n ≠ m) :
    (s.bind n t).type? m = s.type? m := by
  rw [type?_eq, type?_eq, bind, Std.ExtTreeMap.getElem?_insert,
    if_neg (by rwa [Std.LawfulEqCmp.compare_eq_iff_eq])]
  rfl

theorem hasLocal_eq (s : ScopeStack) (n : Name) : s.hasLocal n = s.innermost[n]?.isSome :=
  Std.ExtTreeMap.contains_eq_isSome_getElem?

@[simp] theorem outer_push (s : ScopeStack) : s.push.outer = s.frames := rfl

theorem pop?_of_outer {s s' : ScopeStack} (h : s.outer = s'.frames) : s.pop? = some s' := by
  unfold pop?
  rw [h]
  rfl

theorem outer_of_pop? {s s' : ScopeStack} (h : s.pop? = some s') : s.outer = s'.frames := by
  unfold pop? at h
  cases houter : s.outer with
  | nil =>
    rw [houter] at h
    cases h
  | cons f fs =>
    rw [houter] at h
    rw [← Option.some.inj h]
    rfl

theorem depth_of_pop? {s s' : ScopeStack} (h : s.pop? = some s') : s.depth = s'.depth + 1 := by
  rw [depth, outer_of_pop? h]
  rfl

theorem pop?_eq_none_iff (s : ScopeStack) : s.pop? = none ↔ s.depth = 1 := by
  unfold pop? depth
  cases s.outer with
  | nil => simp
  | cons f fs => simp

@[simp] theorem outer_foldl_bind (params : List Name) (t : Ty) : ∀ s : ScopeStack,
    (params.foldl (·.bind · t) s).outer = s.outer := by
  induction params with
  | nil => exact fun _ => rfl
  | cons p ps ih => exact fun s => (ih (s.bind p t)).trans rfl

theorem resolve_fst (s : ScopeStack) (n : Name) (caps : CaptureSet) :
    (s.resolve n caps).1 = s.type? n := by
  rw [type?_eq]
  unfold resolve
  cases s.innermost[n]? with
  | some t => rfl
  | none => cases s.outerType? n <;> rfl

end ScopeStack

theorem getElem?_insertIfNew (caps : CaptureSet) (n m : Name) (t : Ty) :
    (caps.insertIfNew n t)[m]? = caps[m]?.or (if n = m then some t else none) := by
  rw [Std.ExtTreeMap.getElem?_insertIfNew]
  by_cases h : n = m
  · subst h
    cases hc : caps[n]? with
    | none => simp [Std.ExtTreeMap.mem_iff_isSome_getElem?, hc]
    | some u => simp [Std.ExtTreeMap.mem_iff_isSome_getElem?, hc]
  · simp [h]

/-- What a look-up adds to the captures: the name, if the look-up ends below the innermost frame
and the captures do not hold the name. -/
theorem ScopeStack.getElem?_resolve (s : ScopeStack) (n m : Name) (caps : CaptureSet) :
    (s.resolve n caps).2[m]? =
      caps[m]?.or (if n = m then typeBelow s.frames n s.outer.length else none) := by
  have hbelow : typeBelow s.frames n s.outer.length =
      match s.innermost[n]? with
      | some _ => none
      | none => s.outerType? n := by
    refine (typeBelow_append [s.innermost] s.outer n).trans ?_
    rw [List.findSome?_cons, List.findSome?_nil]
    cases s.innermost[n]? <;> rfl
  rw [hbelow]
  cases hl : s.innermost[n]? with
  | some t => simp [s.resolve_of_local caps hl]
  | none =>
    cases ho : s.outerType? n with
    | some t => rw [s.resolve_of_outer caps hl ho, getElem?_insertIfNew]
    | none => simp [s.resolve_of_unbound caps hl ho]

/-! ### Passing captures on -/

/-- One name passed on from a closure to the code around it. -/
def forwardOne (s : ScopeStack) (acc : CaptureSet × Nat) (n : Name) (t : Ty) : CaptureSet × Nat :=
  if s.hasLocal n || acc.1.contains n then acc else (acc.1.insert n t, acc.2 + 1)

theorem forward_eq (inner : CaptureSet) (s : ScopeStack) (caps : CaptureSet) :
    inner.forward s caps = inner.toList.foldl (fun acc p => forwardOne s acc p.1 p.2) (caps, 0) := by
  unfold CaptureSet.forward
  rw [Std.ExtTreeMap.foldl_eq_foldl_toList]
  rfl

theorem getElem?_forwardOne (s : ScopeStack) (acc : CaptureSet × Nat) (n m : Name) (t : Ty) :
    (forwardOne s acc n t).1[m]? =
      acc.1[m]?.or (if n = m ∧ s.hasLocal n = false then some t else none) := by
  unfold forwardOne
  by_cases hl : s.hasLocal n
  · simp [hl]
  · by_cases hc : acc.1.contains n
    · rw [if_pos (by simp [hc])]
      by_cases hm : n = m
      · subst hm
        obtain ⟨u, hu⟩ := Option.isSome_iff_exists.1
          (Std.ExtTreeMap.contains_eq_isSome_getElem?.symm.trans hc)
        simp [hu]
      · simp [hm]
    · rw [if_neg (by simp [hl, hc])]
      by_cases hm : n = m
      · subst hm
        have hn : acc.1[n]? = none :=
          Std.ExtTreeMap.getElem?_eq_none_of_contains_eq_false (Bool.eq_false_iff.2 hc)
        simp [hn, hl]
      · simp [Std.ExtTreeMap.getElem?_insert, hm]

/-- A list of captures passed on, seen at one name: the first entry for the name counts. -/
theorem getElem?_foldl_forwardOne (s : ScopeStack) (m : Name) :
    ∀ (ps : List (Name × Ty)) (acc : CaptureSet × Nat),
      (ps.foldl (fun acc p => forwardOne s acc p.1 p.2) acc).1[m]? =
        acc.1[m]?.or (if s.hasLocal m then none else ps.findSome? fun p =>
          if p.1 = m then some p.2 else none)
  | [], acc => by simp
  | p :: ps, acc => by
    rw [List.foldl_cons, getElem?_foldl_forwardOne s m ps, getElem?_forwardOne, Option.or_assoc]
    congr 1
    by_cases hm : p.1 = m
    · subst hm
      cases hl : s.hasLocal p.1 <;> simp
    · simp [hm]

theorem findSome?_toList (caps : CaptureSet) (m : Name) :
    (caps.toList.findSome? fun p => if p.1 = m then some p.2 else none) = caps[m]? := by
  cases hc : caps[m]? with
  | some t =>
    have hmem : (m, t) ∈ caps.toList := Std.ExtTreeMap.mem_toList_iff_getElem?_eq_some.2 hc
    cases hf : caps.toList.findSome? fun p => if p.1 = m then some p.2 else none with
    | none => simpa using List.findSome?_eq_none_iff.1 hf _ hmem
    | some u =>
      obtain ⟨p, hp, hu⟩ := List.exists_of_findSome?_eq_some hf
      obtain ⟨rfl, rfl⟩ : p.1 = m ∧ p.2 = u := by simpa using hu
      rw [← hc, ← Std.ExtTreeMap.mem_toList_iff_getElem?_eq_some.1 hp]
  | none =>
    refine List.findSome?_eq_none_iff.2 fun p hp => ?_
    have hpm : p.1 ≠ m := fun h => by
      have := Std.ExtTreeMap.mem_toList_iff_getElem?_eq_some.1 hp
      rw [h, hc] at this
      cases this
    simp [hpm]

/-- **What passing on adds.** The captures of the code around a closure keep their entries; to them
come those of the closure whose names the code around it does not bind itself. -/
theorem CaptureSet.getElem?_forward (inner : CaptureSet) (s : ScopeStack) (caps : CaptureSet)
    (m : Name) :
    (inner.forward s caps).1[m]? = caps[m]?.or (if s.hasLocal m then none else inner[m]?) := by
  rw [forward_eq, getElem?_foldl_forwardOne, findSome?_toList]

/-! ### Taking names away -/

/-- The frame without some names, each of which has to be there when its turn comes. -/
def deleteNames : List Name → Frame → Option Frame
  | [], frame => some frame
  | n :: ns, frame => if n ∈ frame then deleteNames ns (frame.erase n) else none

theorem mem_of_deleteNames : ∀ {names : List Name} {before frame : Frame} {m : Name},
    deleteNames names before = some frame → m ∈ frame → m ∈ before ∧ m ∉ names
  | [], before, frame, m, h, hm => by
    obtain rfl := Option.some.inj h
    exact ⟨hm, nofun⟩
  | n :: names, before, frame, m, h, hm => by
    rw [deleteNames] at h
    split at h
    · obtain ⟨hmem, hnot⟩ := mem_of_deleteNames h hm
      obtain ⟨hne, hmem⟩ := Std.ExtTreeMap.mem_erase.1 hmem
      refine ⟨hmem, fun hmn => ?_⟩
      rcases List.mem_cons.1 hmn with rfl | hmn
      · exact hne Std.ReflCmp.compare_self
      · exact hnot hmn
    · cases h

end ShellOps
