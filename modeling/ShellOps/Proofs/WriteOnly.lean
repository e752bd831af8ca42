/-
# Captures are written and never read

What the code around a node has captured so far has no say in how the node compiles. The result, the
frames and the counts are the same for every capture set to start from, and a node that compiles adds
the same names to each set, except those that are in it already, which keep their kinds.

The proof follows a step from all capture sets at once (`WriteOnly`): one result, one end state and one
set of names to add serve for every set. A closure literal starts its code with no captures and puts
those of the code around it back, so it is such a step whatever its code does; the captures it passes on
are chosen by the frames alone.
-/
import ShellOps.Proofs.Relations

namespace ShellOps

variable {α β F : Type}

/-- The state with another capture set. -/
def CompileState.withCaptures (s : CompileState) (caps : CaptureSet) : CompileState :=
  { s with captures := caps }

/-- The step gives the same result and leaves the same state from every capture set, apart from the
captures. If it succeeds, the captures it leaves are those it started from and, after them, the same
ones each time. -/
def WriteOnly (x : CompileM α) : Prop :=
  ∀ s : CompileState, ∃ (r : Except Failure α) (t : CompileState), ∀ caps : CaptureSet,
    ∃ after : CaptureSet, x.outcome (s.withCaptures caps) = (r, t.withCaptures after) ∧
      ∀ a, r = .ok a → ∀ n : Name, after[n]? = caps[n]?.or t.captures[n]?

namespace WriteOnly

/-- A step that leaves the captures alone. -/
theorem quiet {x : CompileM α} (h : ∀ s caps, x.outcome (s.withCaptures caps) =
    ((x.outcome s).1, (x.outcome s).2.withCaptures caps)) : WriteOnly x := by
  intro s
  refine ⟨(x.outcome s).1, (x.outcome s).2.withCaptures ∅, fun caps => ⟨caps, h s caps, fun a _ n => ?_⟩⟩
  simp [CompileState.withCaptures]

/-- What the first step adds comes before what the second one does. -/
theorem sequence {x : CompileM α} {f : α → CompileM β} (hx : WriteOnly x)
    (hf : ∀ a, x.CanGive a → WriteOnly (f a)) : WriteOnly (x >>= f) := by
  intro s
  obtain ⟨r, t, ht⟩ := hx s
  cases r with
  | error e =>
    refine ⟨.error e, t, fun caps => ?_⟩
    obtain ⟨after, hout, -⟩ := ht caps
    refine ⟨after, ?_, fun a ha => by cases ha⟩
    rw [CompileM.outcome_bind, hout]
  | ok a =>
    have hgive : x.CanGive a := by
      obtain ⟨after, hout, -⟩ := ht ∅
      exact ⟨_, _, hout⟩
    obtain ⟨r', u, hu⟩ := hf a hgive t
    -- what both steps add is what the second one leaves when it starts from what the first one adds
    obtain ⟨both, -, hboth⟩ := hu t.captures
    refine ⟨r', u.withCaptures both, fun caps => ?_⟩
    obtain ⟨between, hout, hbetween⟩ := ht caps
    obtain ⟨after, hout', hafter⟩ := hu between
    refine ⟨after, ?_, fun b hb n => ?_⟩
    · rw [CompileM.outcome_bind, hout]
      exact hout'
    · calc after[n]? = between[n]?.or u.captures[n]? := hafter b hb n
        _ = caps[n]?.or (t.captures[n]?.or u.captures[n]?) := by
          rw [hbetween a rfl n, Option.or_assoc]
        _ = caps[n]?.or both[n]? := by rw [hboth b hb n]

/-- A look-up adds what the frames alone decide. -/
theorem resolve (n : Name) : WriteOnly (CompileM.resolve n) := by
  intro s
  refine ⟨.ok (s.scopes.type? n), s.withCaptures (s.scopes.resolve n ∅).2, fun caps => ?_⟩
  refine ⟨(s.scopes.resolve n caps).2, ?_, fun _ _ m => ?_⟩
  · rw [CompileM.outcome_resolve, ScopeStack.resolve_fst]
    rfl
  · simp only [CompileState.withCaptures, ScopeStack.getElem?_resolve,
      Std.ExtTreeMap.getElem?_empty, Option.none_or]

theorem nested {x : CompileM α} (o : Options) (pos : Pos) (h : WriteOnly x) :
    WriteOnly (CompileM.nested o pos x) := by
  intro s
  have hdeeper (caps : CaptureSet) :
      (s.withCaptures caps).deeper = s.deeper.withCaptures caps := rfl
  by_cases hexceeds : o.exceeds (s.depth + 1) = true
  · refine ⟨.error (.rejected pos .tooDeep), s, fun caps => ⟨caps, ?_, fun a ha => by cases ha⟩⟩
    exact (CompileM.outcome_nested o pos x _).trans (if_pos hexceeds)
  · obtain ⟨r, t, ht⟩ := h s.deeper
    refine ⟨r, { t with depth := t.depth - 1 }, fun caps => ?_⟩
    obtain ⟨after, hout, hafter⟩ := ht caps
    refine ⟨after, ?_, hafter⟩
    rw [CompileM.outcome_nested, hdeeper, hout]
    exact if_neg hexceeds

/-- **A closure literal does not touch the captures of the code around it.** Its own code starts
without any, so nothing is asked of it. -/
theorem closure (o : Options) (pos : Pos) (params : List Name)
    (body : CompileM (List (ValuesOp F))) : WriteOnly (closureAround o pos params body) := by
  intro s
  have hentered (caps : CaptureSet) :
      (s.withCaptures caps).deeper.entered params = s.deeper.entered params := rfl
  by_cases hexceeds : o.exceeds (s.depth + 1) = true
  · refine ⟨.error (.rejected pos .tooDeep), s, fun caps => ⟨caps, ?_, fun a ha => by cases ha⟩⟩
    exact (outcome_closureAround o pos params body _).trans (if_pos hexceeds)
  · have hout (caps : CaptureSet) :=
      (outcome_closureAround o pos params body (s.withCaptures caps)).trans (if_neg hexceeds)
    simp only [hentered] at hout
    rcases hbody : body.outcome (s.deeper.entered params) with ⟨e | pipelines, t⟩
    · simp only [hbody] at hout
      exact ⟨.error e, { t with depth := t.depth - 1 }, fun caps =>
        ⟨t.captures, hout caps, fun a ha => by cases ha⟩⟩
    · cases hpop : t.scopes.pop? with
      | none =>
        simp only [hbody, hpop] at hout
        exact ⟨.error (.malformed .rootPopped), { t with depth := t.depth - 1 }, fun caps =>
          ⟨caps, hout caps, fun a ha => by cases ha⟩⟩
      | some scopes =>
        simp only [hbody, hpop] at hout
        refine ⟨_, { t.left scopes ∅ with depth := t.depth - 1 }, fun caps => ⟨caps, hout caps, ?_⟩⟩
        intro a _ n
        simp [CompileState.left]

/-- Which captures of a closure are passed on is up to the frames. -/
theorem forwardCaptures (inner : CaptureSet) : WriteOnly (CompileM.forwardCaptures inner) := by
  intro s
  refine ⟨.ok (), s.withCaptures (inner.forward s.scopes ∅).1, fun caps => ?_⟩
  refine ⟨(inner.forward s.scopes caps).1, rfl, fun _ _ n => ?_⟩
  simp only [CompileState.withCaptures, CaptureSet.getElem?_forward,
    Std.ExtTreeMap.getElem?_empty, Option.none_or]

theorem forwarding (o : Options) (pos : Pos) (params : List Name)
    (body : CompileM (List (ValuesOp F))) : WriteOnly (forwarding (closureAround o pos params body)) := by
  refine sequence (closure o pos params body) fun c _ => ?_
  exact sequence (forwardCaptures c.captures) fun _ _ => quiet fun _ _ => rfl

end WriteOnly

/-- Nothing a compilation is made of reads the captures. -/
theorem writeOnly (o : Options) : StepRelation .all o o fun x _ => WriteOnly x where
  pure _ := .quiet fun _ _ => rfl
  sequence := WriteOnly.sequence
  reject _ _ := .quiet fun _ _ => rfl
  malformed _ := .quiet fun _ _ => rfl
  count _ _ := .quiet fun _ _ => rfl
  bindName _ _ := .quiet fun _ _ => rfl
  unbind _ := .quiet fun _ _ => rfl
  hasLocal _ := .quiet fun _ _ => rfl
  resolve _ := WriteOnly.resolve _
  nested pos h := h.nested o pos
  closure pos params _ := WriteOnly.closure o pos params _
  forwarding pos params _ := WriteOnly.forwarding o pos params _

/-- **Captures are write-only.** Compiling any node from a state with the captures `caps` and from the
same state without captures gives the same op or the same failure, and leaves the same frames, counts and
depth. If the node compiles, the captures it leaves in the first case are `caps`, with their kinds, and
those it leaves in the second case whose names are not in `caps`. -/
theorem captures_write_only (env : Env F) (hcore : env.registry.CoreOnly) (node : Node)
    (s : CompileState) (caps : CaptureSet) :
    ∃ (r : Except Failure (NodeOp F)) (loaded plain : CompileState),
      (compileNode env node).outcome (s.withCaptures caps) = (r, loaded) ∧
      (compileNode env node).outcome (s.withCaptures ∅) = (r, plain) ∧
      loaded.scopes = plain.scopes ∧ loaded.stats = plain.stats ∧ loaded.depth = plain.depth ∧
      ∀ op, r = .ok op → ∀ n : Name, loaded.captures[n]? = caps[n]?.or plain.captures[n]? := by
  have hnode : WriteOnly (compileNode env node) :=
    compileNode_related (writeOnly env.options) (.refl env) hcore node (Allowance.allows_all _ _)
  obtain ⟨r, t, ht⟩ := hnode s
  obtain ⟨after, hloaded, hafter⟩ := ht caps
  obtain ⟨added, hplain, hadded⟩ := ht ∅
  refine ⟨r, t.withCaptures after, t.withCaptures added, hloaded, hplain, rfl, rfl, rfl, ?_⟩
  intro op hop n
  have hn : added[n]? = t.captures[n]? := by
    rw [hadded op hop n, Std.ExtTreeMap.getElem?_empty, Option.none_or]
  calc after[n]? = caps[n]?.or t.captures[n]? := hafter op hop n
    _ = caps[n]?.or added[n]? := by rw [hn]

/-- The code of a closure in a script that binds `x` and `y`. -/
def insideClosure : CompileState :=
  (CompileState.ofRoot {(utf8 "x", .list), (utf8 "y", .string)}).entered []

/-- `{|p| echo $x {put $p $y}}`, which captures `x` itself and takes `y` on from the closure in it. -/
def nestedUse : Node :=
  .closurePrimary (closureOf ["p"] [formOf "echo" [.variable 0 (utf8 "x"),
    .closure 0 (some (closureOf [] [formOf "put" [.variable 0 (utf8 "p"), .variable 0 (utf8 "y")]]))]])

/-- Captures from before that say something else about `x`. -/
def earlierCaptures : CaptureSet := {(utf8 "x", .number), (utf8 "z", .any)}

theorem captures_write_only_nested :
    ∃ (op : NodeOp Unit) (loaded plain : CompileState),
      (compileNode coreEnv nestedUse).outcome (insideClosure.withCaptures earlierCaptures) =
        (.ok op, loaded) ∧
      (compileNode coreEnv nestedUse).outcome (insideClosure.withCaptures ∅) = (.ok op, plain) ∧
      plain.captures[utf8 "x"]? = some .list ∧ loaded.captures[utf8 "x"]? = some .number ∧
      plain.captures[utf8 "y"]? = some .string ∧ loaded.captures[utf8 "y"]? = some .string := by
  obtain ⟨r, loaded, plain, hloaded, hplain, -, -, -, hadds⟩ :=
    captures_write_only (coreEnv : Env Unit) coreOnly_coreEnv nestedUse insideClosure earlierCaptures
  have hok : ((compileNode (coreEnv : Env Unit) nestedUse).outcome
      (insideClosure.withCaptures ∅)).1.toBool = true := by decide +kernel
  have hx : ((compileNode (coreEnv : Env Unit) nestedUse).outcome
      (insideClosure.withCaptures ∅)).2.captures[utf8 "x"]? = some .list := by decide +kernel
  have hy : ((compileNode (coreEnv : Env Unit) nestedUse).outcome
      (insideClosure.withCaptures ∅)).2.captures[utf8 "y"]? = some .string := by decide +kernel
  rw [hplain] at hok hx hy
  cases r with
  | error e => cases hok
  | ok op =>
    refine ⟨op, loaded, plain, hloaded, hplain, hx, ?_, hy, ?_⟩
    · rw [hadds op rfl, hx]
      decide +kernel
    · rw [hadds op rfl, hy]
      decide +kernel

end ShellOps
