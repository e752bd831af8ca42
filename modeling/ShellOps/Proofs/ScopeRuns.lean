/-
# A scope stack in use

A scope stack is pushed, popped, bound, unbound and looked up in, in any order. Two laws hold of every such
run. What happens on top of a stack leaves it alone: a push, any steps that stay above, and the pops that
lead back give the stack as it was. And what the stack holds can be told from the history: the frame of a
level binds a name as the last step that bound it there did, unless the name was unbound there or the frame
was popped since. A look-up finds the innermost frame that holds the name, and captures the name if that is
not the innermost frame of all (`scope_runs_bracketed`).
-/
import ShellOps.Proofs.Histories
import ShellOps.Proofs.Scope

namespace ShellOps

/-! ### The frame of a level -/

/-- The kind that the frame of level `k` gives a name. -/
def kindAt (n : Name) (fs : List Frame) (k : Nat) : Option Ty := fs.reverse[k]?.bind (·[n]?)

theorem kindAt_cons (n : Name) (f : Frame) (fs : List Frame) (k : Nat) :
    kindAt n (f :: fs) k = if k = fs.length then f[n]? else kindAt n fs k := by
  unfold kindAt
  rw [List.reverse_cons]
  have hlen : fs.reverse.length = fs.length := List.length_reverse
  rcases Nat.lt_trichotomy k fs.length with hlt | rfl | hgt
  · rw [if_neg (Nat.ne_of_lt hlt), List.getElem?_append_left (by omega)]
  · rw [if_pos rfl, List.getElem?_append_right (by omega), hlen, Nat.sub_self]
    rfl
  · have hnew : (fs.reverse ++ [f])[k]? = none := by
      apply List.getElem?_eq_none
      rw [List.length_append, hlen, List.length_singleton]
      omega
    rw [if_neg (Nat.ne_of_gt hgt), hnew, List.getElem?_eq_none (by omega)]

theorem lt_of_kindAt {n : Name} {fs : List Frame} {k : Nat} {t : Ty} (h : kindAt n fs k = some t) :
    k < fs.length := by
  unfold kindAt at h
  obtain ⟨f, hf, -⟩ := Option.bind_eq_some_iff.1 h
  obtain ⟨hk, -⟩ := List.getElem?_eq_some_iff.1 hf
  rwa [List.length_reverse] at hk

/-- A look-up ends at the innermost frame that binds the name. -/
theorem locate_eq_some_iff {n : Name} {k : Nat} {t : Ty} : ∀ {fs : List Frame},
    locate n fs = some (k, t) ↔ kindAt n fs k = some t ∧ ∀ j u, kindAt n fs j = some u → j ≤ k
  | [] => by simp [locate, kindAt]
  | f :: fs => by
    rw [locate]
    cases hf : f[n]? with
    | some u =>
      have htop : kindAt n (f :: fs) fs.length = some u := by rw [kindAt_cons, if_pos rfl, hf]
      constructor
      · intro h
        obtain ⟨rfl, rfl⟩ := Prod.mk.inj (Option.some.inj h)
        exact ⟨htop, fun j v hj => Nat.le_of_lt_succ (lt_of_kindAt hj)⟩
      · rintro ⟨hk, hmax⟩
        have hlt : k < fs.length + 1 := lt_of_kindAt hk
        have hle : fs.length ≤ k := hmax _ _ htop
        obtain rfl : k = fs.length := by omega
        rw [htop] at hk
        rw [Option.some.inj hk]
    | none =>
      have hrest : ∀ j u, kindAt n (f :: fs) j = some u ↔ kindAt n fs j = some u := by
        intro j u
        rw [kindAt_cons]
        by_cases hj : j = fs.length
        · rw [if_pos hj, hf]
          exact ⟨fun h => (by cases h), fun h => absurd (lt_of_kindAt h) (by omega)⟩
        · rw [if_neg hj]
      simp only [hrest]
      exact locate_eq_some_iff

/-! ### Steps and runs -/

/-- A use of a scope stack. -/
inductive ScopeStep
  | push
  | pop
  | bind (n : Name) (t : Ty)
  | unbind (n : Name)
  | resolve (n : Name)
  | hasLocal (n : Name)
deriving DecidableEq

namespace ScopeStack

/-- The stack after a step. A pop of the root frame is refused, and to look at a stack does not change
it. -/
def perform (s : ScopeStack) : ScopeStep → ScopeStack
  | .push => s.push
  | .pop => s.pop?.getD s
  | .bind n t => s.bind n t
  | .unbind n => s.unbind n
  | .resolve _ => s
  | .hasLocal _ => s

/-- The stack after some steps. -/
def after (s : ScopeStack) (steps : List ScopeStep) : ScopeStack := steps.foldl perform s

theorem after_append (s : ScopeStack) (steps steps' : List ScopeStep) :
    s.after (steps ++ steps') = (s.after steps).after steps' := List.foldl_append

theorem length_frames (s : ScopeStack) : s.frames.length = s.depth := rfl

theorem perform_pop_of_some {s s' : ScopeStack} (h : s.pop? = some s') : s.perform .pop = s' := by
  rw [perform, h, Option.getD_some]

theorem perform_pop_of_none {s : ScopeStack} (h : s.pop? = none) : s.perform .pop = s := by
  rw [perform, h, Option.getD_none]

/-! ### What a run on top of a stack leaves alone -/

/-- A step taken above some frames leaves them there. -/
theorem frames_perform_above {s : ScopeStack} {top base : List Frame} (h : s.frames = top ++ base)
    (habove : base.length < s.depth) (step : ScopeStep) :
    ∃ top', (s.perform step).frames = top' ++ base := by
  cases top with
  | nil =>
    have hlen : s.depth = base.length := congrArg List.length h
    omega
  | cons f top =>
    have hout : s.outer = top ++ base := (List.cons.inj h).2
    cases step with
    | push => exact ⟨∅ :: f :: top, congrArg (∅ :: ·) h⟩
    | pop =>
      cases hpop : s.pop? with
      | none => exact ⟨f :: top, by rw [perform_pop_of_none hpop, h]⟩
      | some s' =>
        rw [perform_pop_of_some hpop, ← outer_of_pop? hpop]
        exact ⟨top, hout⟩
    | bind n t => exact ⟨s.innermost.insert n t :: top, congrArg (_ :: ·) hout⟩
    | unbind n => exact ⟨s.innermost.erase n :: top, congrArg (_ :: ·) hout⟩
    | resolve n => exact ⟨f :: top, h⟩
    | hasLocal n => exact ⟨f :: top, h⟩

/-- So does a run whose every step is taken above them. -/
theorem frames_after_above {base : List Frame} : ∀ (steps : List ScopeStep) {s : ScopeStack}
    {top : List Frame}, s.frames = top ++ base →
      (∀ i < steps.length, base.length < (s.after (steps.take i)).depth) →
      ∃ top', (s.after steps).frames = top' ++ base
  | [], _, top, h, _ => ⟨top, h⟩
  | step :: steps, s, top, h, habove => by
    have hfirst : base.length < s.depth := habove 0 (Nat.zero_lt_succ _)
    obtain ⟨top', h'⟩ := frames_perform_above h hfirst step
    exact frames_after_above steps h' fun i hi => habove (i + 1) (Nat.succ_lt_succ hi)

/-- Popping what lies on top of a stack gives the stack. -/
theorem after_pops {s : ScopeStack} : ∀ (top : List Frame) {s' : ScopeStack},
    s'.frames = top ++ s.frames → s'.after (List.replicate top.length .pop) = s
  | [], s', h => by
    obtain ⟨hinnermost, houter⟩ := List.cons.inj h
    cases s'
    cases s
    simp only at hinnermost houter
    rw [hinnermost, houter]
    rfl
  | f :: top, s', h => by
    have houter : s'.outer = top ++ s.frames := (List.cons.inj h).2
    obtain ⟨s'', hs''⟩ : ∃ s'' : ScopeStack, s''.frames = top ++ s.frames := by
      cases top with
      | nil => exact ⟨s, rfl⟩
      | cons g top => exact ⟨⟨g, top ++ s.frames⟩, rfl⟩
    have hpop : s'.perform .pop = s'' := perform_pop_of_some (pop?_of_outer (houter.trans hs''.symm))
    show (s'.perform .pop).after (List.replicate top.length .pop) = s
    rw [hpop]
    exact after_pops top hs''

/-! ### What a run did to a frame -/

/-- The step leaves the frame of level `k` on the stack, and does not bind or unbind `n` in it. -/
def Leaves (k : Nat) (n : Name) (s : ScopeStack) (step : ScopeStep) : Prop :=
  k < (s.perform step).depth ∧ (s.depth = k + 1 → step ≠ .unbind n ∧ ∀ u, step ≠ .bind n u)

theorem kindAt_frames (s : ScopeStack) (n : Name) (k : Nat) :
    kindAt n s.frames k = if s.depth = k + 1 then s.innermost[n]? else kindAt n s.outer k := by
  have hlevel : k = s.outer.length ↔ s.depth = k + 1 := by unfold depth; omega
  unfold frames
  simp only [kindAt_cons, hlevel]

/-- The new frame is empty, like the level that was not there. -/
theorem kindAt_push (s : ScopeStack) (n : Name) (k : Nat) :
    kindAt n s.push.frames k = kindAt n s.frames k := by
  rw [kindAt_frames s.push]
  by_cases hk : s.push.depth = k + 1
  · rw [if_pos hk]
    cases hold : kindAt n s.frames k with
    | none => exact Std.ExtTreeMap.getElem?_empty
    | some t =>
      have hlt : k < s.depth := lt_of_kindAt hold
      rw [depth_push] at hk
      omega
  · rw [if_neg hk]
    rfl

/-- The frames that are left after a pop keep their bindings. -/
theorem kindAt_pop {s s' : ScopeStack} (h : s.pop? = some s') (n : Name) (k : Nat) :
    kindAt n s'.frames k = if k < s'.depth then kindAt n s.frames k else none := by
  have hout : s.outer = s'.frames := outer_of_pop? h
  have hdepth : s.depth = s'.depth + 1 := depth_of_pop? h
  by_cases hk : k < s'.depth
  · rw [if_pos hk, kindAt_frames s, if_neg (by omega), hout]
  · rw [if_neg hk]
    cases hold : kindAt n s'.frames k with
    | none => rfl
    | some t => exact absurd (lt_of_kindAt hold) hk

/-- A change to the innermost frame shows at its level only. -/
theorem kindAt_edited (s : ScopeStack) (f : Frame) (n : Name) (k : Nat) :
    kindAt n (⟨f, s.outer⟩ : ScopeStack).frames k =
      if s.depth = k + 1 then f[n]? else kindAt n s.frames k := by
  have hdepth : (⟨f, s.outer⟩ : ScopeStack).depth = s.depth := rfl
  rw [kindAt_frames, hdepth, kindAt_frames s]
  by_cases hk : s.depth = k + 1
  · rw [if_pos hk, if_pos hk]
  · rw [if_neg hk, if_neg hk, if_neg hk]

/-- **What one step does to a frame.** The frame of level `k` binds a name after a step if the step bound it
there, or if the frame bound it before and the step left both alone. -/
theorem kindAt_perform (k : Nat) (n : Name) (s : ScopeStack) (step : ScopeStep) (t : Ty) :
    kindAt n (s.perform step).frames k = some t ↔
      (step = .bind n t ∧ s.depth = k + 1) ∨ kindAt n s.frames k = some t ∧ Leaves k n s step := by
  have hlt : kindAt n s.frames k = some t → k < s.depth := lt_of_kindAt
  unfold Leaves
  cases step with
  | push =>
    have hdepth : (s.perform .push).depth = s.depth + 1 := depth_push s
    have hkind : kindAt n (s.perform .push).frames k = kindAt n s.frames k := kindAt_push s n k
    rw [hkind, hdepth]
    grind
  | pop =>
    cases hpop : s.pop? with
    | none =>
      rw [perform_pop_of_none hpop]
      grind
    | some s' =>
      rw [perform_pop_of_some hpop, kindAt_pop hpop]
      grind
  | bind m u =>
    have hdepth : (s.perform (.bind m u)).depth = s.depth := rfl
    have hkind := kindAt_edited s (s.innermost.insert m u) n k
    have hold := kindAt_frames s n k
    rw [Std.ExtTreeMap.getElem?_insert] at hkind
    rw [hdepth, show kindAt n (s.perform (.bind m u)).frames k = _ from hkind]
    grind
  | unbind m =>
    have hdepth : (s.perform (.unbind m)).depth = s.depth := rfl
    have hkind := kindAt_edited s (s.innermost.erase m) n k
    have hold := kindAt_frames s n k
    rw [Std.ExtTreeMap.getElem?_erase] at hkind
    rw [hdepth, show kindAt n (s.perform (.unbind m)).frames k = _ from hkind]
    grind
  | resolve m => simpa [perform] using hlt
  | hasLocal m => simpa [perform] using hlt

/-- `s.Stands steps k n t`: after the steps, taken from `s`, the frame of level `k` binds `n` to the kind
`t`. Either a step bound it so while that frame was the innermost, or `s` did; and since then the frame
stayed on the stack and `n` was neither bound nor unbound in it. -/
def Stands (s : ScopeStack) (steps : List ScopeStep) (k : Nat) (n : Name) (t : Ty) : Prop :=
  (∃ before later, steps = before ++ .bind n t :: later ∧ (s.after before).depth = k + 1 ∧
    Throughout perform (Leaves k n) (s.after (before ++ [.bind n t])) later) ∨
  kindAt n s.frames k = some t ∧ Throughout perform (Leaves k n) s steps

/-- `s.Nearest steps k n t`: of the frames that hold `n` after the steps, the innermost is that of level
`k`, and there `n` has the kind `t`. -/
def Nearest (s : ScopeStack) (steps : List ScopeStep) (k : Nat) (n : Name) (t : Ty) : Prop :=
  s.Stands steps k n t ∧ ∀ j u, s.Stands steps j n u → j ≤ k

/-- **The frames after a run are told by its history.** -/
theorem kindAt_after (s : ScopeStack) (steps : List ScopeStep) (k : Nat) (n : Name) (t : Ty) :
    kindAt n (s.after steps).frames k = some t ↔ s.Stands steps k n t := by
  have hrun := read_foldl_iff (fun s => kindAt n s.frames k) (kindAt_perform k n) t steps s
  refine hrun.trans (or_congr_left ?_)
  constructor
  · rintro ⟨before, step, later, rfl, ⟨rfl, hdepth⟩, hlater⟩
    exact ⟨before, later, rfl, hdepth, hlater⟩
  · rintro ⟨before, later, rfl, hdepth, hlater⟩
    exact ⟨before, _, later, rfl, ⟨rfl, hdepth⟩, hlater⟩

theorem locate_after (s : ScopeStack) (steps : List ScopeStep) (k : Nat) (n : Name) (t : Ty) :
    locate n (s.after steps).frames = some (k, t) ↔ s.Nearest steps k n t := by
  rw [locate_eq_some_iff]
  simp only [kindAt_after]
  rfl

end ScopeStack

open ScopeStack

/-- **Brackets and look-ups of every run.** A push, steps that stay above the stack until they end, and the
pops that lead back to its depth restore the stack. Whatever the steps, a frame is left, and a pop that is
refused, at the root frame, changes nothing. A look-up gives the kind that the innermost frame which holds
the name was last told, and captures the name, keeping the entry that is there, if and only if that frame is
not the innermost of all. -/
theorem scope_runs_bracketed (s : ScopeStack) (steps : List ScopeStep) :
    ((∀ i < steps.length, s.depth < (s.after (.push :: steps.take i)).depth) →
      ∃ pops, (s.after (.push :: steps)).depth = s.depth + pops ∧
        s.after (.push :: steps ++ List.replicate pops .pop) = s) ∧
    1 ≤ (s.after steps).depth ∧
    ((s.after steps).pop? = none ↔ (s.after steps).depth = 1) ∧
    ((s.after steps).pop? = none → s.after (steps ++ [.pop]) = s.after steps) ∧
    ∀ (n : Name) (into : CaptureSet),
      (∀ t, ((s.after steps).resolve n into).1 = some t ↔ ∃ k, s.Nearest steps k n t) ∧
      ∀ (m : Name) (t : Ty), ((s.after steps).resolve n into).2[m]? = some t ↔
        into[m]? = some t ∨ into[m]? = none ∧ m = n ∧
          ∃ k, s.Nearest steps k n t ∧ k + 1 < (s.after steps).depth := by
  refine ⟨fun habove => ?_, one_le_depth _, pop?_eq_none_iff _, fun hpop => ?_,
    fun n into => ⟨fun t => ?_, fun m t => ?_⟩⟩
  · have hpush : s.push.frames = [∅] ++ s.frames := rfl
    obtain ⟨top, htop⟩ := frames_after_above steps hpush habove
    refine ⟨top.length, ?_, ?_⟩
    · show (s.push.after steps).depth = _
      rw [← length_frames, htop, List.length_append, length_frames, Nat.add_comm]
    · rw [after_append]
      exact after_pops top htop
  · rw [after_append]
    exact perform_pop_of_none hpop
  · rw [resolve_fst, type?_eq_some_iff]
    simp only [locate_after]
  · rw [getElem?_resolve, Option.or_eq_some_iff]
    apply or_congr_right
    apply and_congr_right
    intro _
    by_cases hm : n = m
    · subst hm
      rw [if_pos rfl, typeBelow_eq_some_iff]
      have hlevel : ∀ k, k < (s.after steps).outer.length ↔ k + 1 < (s.after steps).depth :=
        fun k => Nat.succ_lt_succ_iff.symm
      simp only [locate_after, hlevel, true_and]
    · simp [hm, Ne.symm hm]

/-- In a closure around which `x` is bound: `x` is bound, and bound and unbound again one closure further
in. -/
def shadowingSteps : List ScopeStep :=
  [.bind (utf8 "x") .string, .push, .bind (utf8 "x") .closure, .unbind (utf8 "x"), .resolve (utf8 "x")]

/-- A root frame with `x`. -/
def rootWithX : ScopeStack := (ScopeStack.ofRoot ∅).bind (utf8 "x") .any

theorem scope_runs_bracketed_shadowing :
    (∀ i < shadowingSteps.length,
      rootWithX.depth < (rootWithX.after (.push :: shadowingSteps.take i)).depth) ∧
    (∃ pops, (rootWithX.after (.push :: shadowingSteps)).depth = rootWithX.depth + pops ∧
      rootWithX.after (.push :: shadowingSteps ++ List.replicate pops .pop) = rootWithX) ∧
    ∃ k, rootWithX.Nearest (.push :: shadowingSteps) k (utf8 "x") .string ∧
      k + 1 < (rootWithX.after (.push :: shadowingSteps)).depth := by
  have habove : ∀ i < shadowingSteps.length,
      rootWithX.depth < (rootWithX.after (.push :: shadowingSteps.take i)).depth := by decide +kernel
  have hcaptured : ((rootWithX.after (.push :: shadowingSteps)).resolve (utf8 "x") ∅).2[utf8 "x"]? =
      some .string := by decide +kernel
  have hnone : (∅ : CaptureSet)[utf8 "x"]? = none := Std.ExtTreeMap.getElem?_empty
  obtain ⟨-, -, -, -, hresolve⟩ := scope_runs_bracketed rootWithX (.push :: shadowingSteps)
  obtain ⟨-, hcaptures⟩ := hresolve (utf8 "x") ∅
  refine ⟨habove, (scope_runs_bracketed rootWithX shadowingSteps).1 habove, ?_⟩
  rcases (hcaptures (utf8 "x") .string).1 hcaptured with h | ⟨-, -, h⟩
  · rw [hnone] at h
    cases h
  · exact h

end ShellOps
