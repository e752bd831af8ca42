/-
# Running on a flat store

How the names in a store change while an op runs. The store is flat: a set of names, which grows by
`define`, shrinks by `remove`, and is shared by all that runs. Which names are there after an op does
not depend on values, so it is known beforehand: a step `Tracks` a walk if it ends with the names that
the walk gives, and if it fails for want of a name only where the walk gives nothing. An evaluator
that handles names in this way is a `FlatEvaluator`; its operations are taken as given here.

On a flat store every op tracks its walk in the order of running (`eval_tracks`). So a run that
succeeds has found each of its names, and whether all of them are there can be seen from the op.
-/
import Mathlib.Data.Finset.Lattice.Lemmas
import Mathlib.Data.Finset.SDiff
import Mathlib.Data.List.Forall2
import ShellOps.Eval
import ShellOps.Proofs.OpWalks

namespace ShellOps

variable {w : World} {F α β : Type}

/-! ### Outcomes -/

/-- The result of a step from a state, and the state after it. -/
def Run.outcome (x : Run w α) (σ : w.State) : Except EvalError α × w.State := x σ

theorem Run.outcome_bind (x : Run w α) (f : α → Run w β) (σ : w.State) :
    Run.outcome (x >>= f) σ = match Run.outcome x σ with
      | (.ok a, σ') => Run.outcome (f a) σ'
      | (.error e, σ') => (.error e, σ') := by
  change (match x σ with | (r, σ') => (ExceptT.bindCont f r) σ') = match x σ with
    | (.ok a, σ') => _
    | (.error e, σ') => _
  rcases x σ with ⟨_ | _, _⟩ <;> rfl

/-- A sequence of two steps ends in the first one, which fails, or in the second. -/
theorem Run.of_outcome_bind {x : Run w α} {f : α → Run w β} {σ σ' : w.State}
    {r : Except EvalError β} (h : Run.outcome (x >>= f) σ = (r, σ')) :
    (∃ e, Run.outcome x σ = (.error e, σ') ∧ r = .error e) ∨
      ∃ a σ₁, Run.outcome x σ = (.ok a, σ₁) ∧ Run.outcome (f a) σ₁ = (r, σ') := by
  rw [Run.outcome_bind] at h
  rcases hx : Run.outcome x σ with ⟨e | a, σ₁⟩ <;> simp only [hx] at h
  · obtain ⟨rfl, rfl⟩ := Prod.mk.inj h
    exact .inl ⟨e, rfl, rfl⟩
  · exact .inr ⟨a, σ₁, rfl, h⟩

theorem Run.of_outcome_pure {a : α} {σ σ' : w.State} {r : Except EvalError α}
    (h : Run.outcome (pure a) σ = (r, σ')) : r = .ok a ∧ σ' = σ := by
  obtain ⟨rfl, rfl⟩ := Prod.mk.inj h
  exact ⟨rfl, rfl⟩

theorem Run.of_outcome_fail {pos : Pos} {fault : EvalFault} {σ σ' : w.State}
    {r : Except EvalError α} (h : Run.outcome (fail pos fault) σ = (r, σ')) :
    r = .error ⟨pos, fault⟩ ∧ σ' = σ := by
  obtain ⟨rfl, rfl⟩ := Prod.mk.inj h
  exact ⟨rfl, rfl⟩

/-- What holds of the result of a step and of the state after it can be computed. -/
theorem Run.exists_outcome (x : Run w α) (σ : w.State) (p : Except EvalError α → w.State → Bool)
    (h : p (Run.outcome x σ).1 (Run.outcome x σ).2) : ∃ r σ', Run.outcome x σ = (r, σ') ∧ p r σ' :=
  ⟨_, _, rfl, h⟩

/-! ### Steps and names -/

/-- The fault is that a name is not there. -/
def EvalFault.missesName : EvalFault → Bool
  | variableNotFound _ | capturedNotFound _ => true
  | _ => false

/-- A step that succeeds leaves the names that the walk gives; one that fails although the walk gives
names does not miss one. -/
def Tracks (defined : w.State → Finset Name) (x : Run w α)
    (walk : Finset Name → Option (Finset Name)) : Prop :=
  ∀ σ, match Run.outcome x σ with
    | (.ok _, σ') => walk (defined σ) = some (defined σ')
    | (.error e, _) => (walk (defined σ)).isSome → e.fault.missesName = false

/-- An evaluator that handles names as a flat store does: exactly the names that are defined are
found, only `define` and `remove` change which names there are, and commands, captures and pipelines
run what they are given to run, in order and on the same store. -/
structure FlatEvaluator (ev : Evaluator w F) (defined : w.State → Finset Name) : Prop where
  lookup : ∀ n σ, ∃ v σ', Run.outcome (ev.lookup n) σ = (.ok v, σ') ∧ defined σ' = defined σ ∧
    (v.isSome ↔ n ∈ defined σ)
  define : ∀ n v, Tracks defined (ev.define n v) fun A => some (insert n A)
  remove : ∀ n, Tracks defined (ev.remove n) fun A => some (A.erase n)
  makeString : ∀ t, Tracks defined (ev.makeString t) some
  makeTable : ∀ items pairs, Tracks defined (ev.makeTable items pairs) some
  makeClosure : ∀ body captured, Tracks defined (ev.makeClosure body captured) some
  makeChannel : Tracks defined ev.makeChannel some
  concat : ∀ l r pos, Tracks defined (ev.concat l r pos) some
  index : ∀ container key pos, Tracks defined (ev.index container key pos) some
  get : ∀ x, Tracks defined (ev.get x) some
  set : ∀ x v, Tracks defined (ev.set x v) some
  port : ∀ fd, Tracks defined (ev.port fd) some
  openFile : ∀ path flags mode, Tracks defined (ev.openFile path flags mode) some
  callSpecial : ∀ c step walk, c.special = some step → Tracks defined step walk →
    Tracks defined (ev.call c) walk
  callPlain : ∀ c, c.special = none → Tracks defined (ev.call c) some
  runPipeline : ∀ (stages : List (Stage w F)) pos walks,
    List.Forall₂ (fun stage walk => Tracks defined stage.run walk) stages walks →
      Tracks defined (ev.runPipeline stages pos) (inTurn walks)
  captureOutput : ∀ op run walk, Tracks defined run walk →
    Tracks defined (ev.captureOutput op run) walk

variable {defined : w.State → Finset Name} {walk walk' : Finset Name → Option (Finset Name)}

namespace Tracks

theorem pure (a : α) : Tracks defined (Pure.pure a : Run w α) some := fun _ => rfl

/-- A step that fails without missing a name tracks any walk. -/
theorem fail (pos : Pos) {fault : EvalFault} (h : fault.missesName = false) :
    Tracks defined (ShellOps.fail pos fault : Run w α) walk := fun _ _ => h

theorem congr {x : Run w α} (h : Tracks defined x walk) (hwalk : ∀ A, walk A = walk' A) :
    Tracks defined x walk' := funext hwalk ▸ h

theorem bind {x : Run w α} {f : α → Run w β} (hx : Tracks defined x walk)
    (hf : ∀ a, Tracks defined (f a) walk') :
    Tracks defined (x >>= f) fun A => (walk A).bind walk' := by
  intro σ
  have hfirst := hx σ
  rw [Run.outcome_bind]
  rcases hout : Run.outcome x σ with ⟨e | a, σ'⟩ <;> simp only [hout] at hfirst
  · intro hsome
    refine hfirst ?_
    cases hwalk : walk (defined σ) with
    | none => simp [hwalk] at hsome
    | some B => rfl
  · have hrest := hf a σ'
    simp only [hfirst, Option.bind_some]
    exact hrest

/-- After a step that leaves the names alone, only the next one matters. -/
theorem after_quiet {x : Run w α} {f : α → Run w β} (hx : Tracks defined x some)
    (hf : ∀ a, Tracks defined (f a) walk) : Tracks defined (x >>= f) walk := hx.bind hf

/-- Before a step that leaves the names alone, only the one before matters. -/
theorem then_quiet {x : Run w α} {f : α → Run w β} (hx : Tracks defined x walk)
    (hf : ∀ a, Tracks defined (f a) some) : Tracks defined (x >>= f) walk :=
  (hx.bind hf).congr fun A => Option.bind_fun_some (walk A)

/-- A step whose result is only handed on. -/
theorem map {x : Run w α} {f : α → β} (hx : Tracks defined x walk) :
    Tracks defined (do return f (← x)) walk := hx.then_quiet fun a => pure (f a)

theorem mapM {f : α → Run w β} (h : ∀ a, Tracks defined (f a) some) :
    ∀ xs : List α, Tracks defined (xs.mapM f) some
  | [] => pure []
  | x :: xs => by
    rw [List.mapM_cons]
    exact (h x).after_quiet fun y => (mapM h xs).map

end Tracks

theorem tracks_single (use : SingleUse) (pos : Pos) : ∀ vs : List w.Value,
    Tracks defined (single use pos vs) some
  | [v] => .pure v
  | [] | _ :: _ :: _ => .fail pos rfl

/-- Names get values only if there are as many values as names. -/
theorem tracks_matchNames {form : BindingForm} {pos : Pos} {names : List Name} {values : List w.Value}
    {f : List (Name × w.Value) → Run w α}
    (h : ∀ pairs, pairs.map (·.1) = names → Tracks defined (f pairs) walk) :
    Tracks defined (matchNames form pos names values >>= f) walk := by
  unfold matchNames
  by_cases hlength : values.length = names.length
  · rw [if_pos hlength, pure_bind]
    exact h _ (List.map_fst_zip hlength.ge)
  · rw [if_neg hlength]
    exact fun _ _ => rfl

/-- Steps, each with its place, that track some walks. -/
abbrev TrackAll (defined : w.State → Finset Name) (steps : List (Pos × Run w (List w.Value)))
    (walks : List (Finset Name → Option (Finset Name))) : Prop :=
  List.Forall₂ (fun step walk => Tracks defined step.2 walk) steps walks

section

variable {steps keys values : List (Pos × Run w (List w.Value))}
variable {walks keyWalks valueWalks : List (Finset Name → Option (Finset Name))}

theorem tracks_sequence (h : TrackAll defined steps walks) :
    Tracks defined (sequence steps) (inTurn walks) := by
  induction h with
  | nil => exact .pure []
  | cons hstep _ ih => exact hstep.bind fun values => ih.map

theorem tracks_lastOf (h : TrackAll defined steps walks) : ∀ last,
    Tracks defined (lastOf last steps) (inTurn walks) := by
  induction h with
  | nil => exact fun last => .pure last
  | cons hstep _ ih => exact fun _ => hstep.bind ih

/-- The pairs of a table run key, value, key, value. -/
theorem tracks_pairUp (hkeys : TrackAll defined keys keyWalks)
    (hvalues : TrackAll defined values valueWalks) :
    Tracks defined (pairUp keys values) (inTurn (alternate keyWalks valueWalks)) := by
  induction hkeys generalizing values valueWalks with
  | nil => exact .pure []
  | cons hkey _ ih =>
    cases hvalues with
    | nil => exact .pure []
    | cons hvalue hvalues =>
      refine hkey.bind fun ks => hvalue.bind fun vs => ?_
      exact (tracks_single _ _ ks).after_quiet fun k => (tracks_single _ _ vs).after_quiet fun v =>
        (ih hvalues).map

end

/-! ### Operations of a flat store -/

theorem needing_cons (n : Name) (names : List Name) (A : Finset Name) :
    needing (n :: names) A = (needing [n] A).bind (needing names) := by
  unfold needing
  by_cases hn : n ∈ A <;> simp [hn]

theorem eval_var {ev : Evaluator w F} {names : List Name} {values : ValuesOp F} {pos : Pos}
    (h : values ≠ .missing) :
    (ValuesOp.var names values pos).eval ev = do
      defineAll ev (← matchNames .var pos names (← values.eval ev))
      return [] := by
  cases values <;> first | exact absurd rfl h | simp only [ValuesOp.eval]

namespace FlatEvaluator

section

variable {ev : Evaluator w F} (hev : FlatEvaluator ev defined)
include hev

/-- A look-up that fails, if it finds nothing, needs the name. -/
theorem lookup_bind {n : Name} {f : Option w.Variable → Run w α} {pos : Pos} {fault : EvalFault}
    (hnone : f none = fail pos fault) (hf : ∀ x, Tracks defined (f (some x)) walk) :
    Tracks defined (ev.lookup n >>= f) fun A => (needing [n] A).bind walk := by
  intro σ
  obtain ⟨v, σ', hlookup, hkeeps, hfound⟩ := hev.lookup n σ
  simp only [Run.outcome_bind, hlookup]
  cases v with
  | none =>
    have hmissing : n ∉ defined σ := fun hn => by simpa using hfound.2 hn
    rw [hnone]
    intro hsome
    simp [needing, hmissing] at hsome
  | some x =>
    have hmem : n ∈ defined σ := hfound.1 rfl
    have hrest := hf x σ'
    have hwalk : (needing [n] (defined σ)).bind walk = walk (defined σ') := by
      rw [needing, if_pos (by simpa using hmem), Option.bind_some, hkeeps]
    rw [hwalk]
    exact hrest

theorem tracks_concatAll (lefts rights : List w.Value) (pos : Pos) :
    Tracks defined (concatAll ev lefts rights pos) some :=
  .mapM (fun (l, r) => hev.concat l r pos) _

theorem tracks_productFrom {steps : List (Pos × Run w (List w.Value))}
    {walks : List (Finset Name → Option (Finset Name))} (h : TrackAll defined steps walks) :
    ∀ acc, Tracks defined (productFrom ev acc steps) (inTurn walks) := by
  induction h with
  | nil => exact fun acc => .pure acc
  | cons hstep _ ih =>
    exact fun acc => hstep.bind fun values => (hev.tracks_concatAll acc values _).after_quiet ih

theorem tracks_product {steps : List (Pos × Run w (List w.Value))}
    {walks : List (Finset Name → Option (Finset Name))} (h : TrackAll defined steps walks) :
    Tracks defined (product ev steps) (inTurn walks) := by
  cases h with
  | nil => exact .pure []
  | cons hstep hrest => exact hstep.bind (hev.tracks_productFrom hrest)

theorem tracks_indexAll (container : w.Value) (pos : Pos) : ∀ keys : List w.Value,
    Tracks defined (indexAll ev container pos keys) some
  | [] => .pure []
  | key :: keys => (hev.index container key pos).after_quiet fun _ =>
    (tracks_indexAll container pos keys).map

theorem tracks_captureVariables (pos : Pos) : ∀ names : List Name,
    Tracks defined (captureVariables ev pos names) (needing names)
  | [] => .pure []
  | n :: names => by
    refine (hev.lookup_bind rfl fun x => ?_).congr fun A => (needing_cons n names A).symm
    exact (tracks_captureVariables pos names).map

theorem tracks_defineAll : ∀ pairs : List (Name × w.Value),
    Tracks defined (defineAll ev pairs) fun A => some (A ∪ (pairs.map (·.1)).toFinset)
  | [] => (Tracks.pure ()).congr fun A => by simp
  | (n, v) :: pairs => ((hev.define n v).bind fun _ => tracks_defineAll pairs).congr fun A => by simp

theorem tracks_defineEmpty : ∀ names : List Name,
    Tracks defined (defineEmpty ev names) fun A => some (A ∪ names.toFinset)
  | [] => (Tracks.pure ()).congr fun A => by simp
  | n :: names => ((hev.makeString []).after_quiet fun v =>
      (hev.define n v).bind fun _ => tracks_defineEmpty names).congr fun A => by simp

theorem tracks_assignAll (pos : Pos) : ∀ pairs : List (Name × w.Value),
    Tracks defined (assignAll ev pos pairs) (needing (pairs.map (·.1)))
  | [] => .pure ()
  | (n, v) :: pairs => by
    refine (hev.lookup_bind rfl fun x => ?_).congr fun A => (needing_cons n _ A).symm
    exact (hev.set x v).after_quiet fun _ => tracks_assignAll pos pairs

theorem tracks_removeAll : ∀ names : List Name,
    Tracks defined (names.forM ev.remove) fun A => some (A \ names.toFinset)
  | [] => (Tracks.pure ()).congr fun A => by simp
  | n :: names => ((hev.remove n).bind fun _ => tracks_removeAll names).congr fun A => by
    simp [Finset.erase_sdiff_comm, Finset.sdiff_insert]

/-! ### Ports -/

theorem tracks_attachFile {filename : Pos × Run w (List w.Value)} (flags : Int32) (mode : UInt32)
    (pos : Pos) (h : Tracks defined filename.2 walk) :
    Tracks defined (attachFile ev filename flags mode pos) walk := by
  refine h.then_quiet fun vs => (tracks_single .filename filename.1 vs).after_quiet fun name => ?_
  by_cases hkind : ev.typeOf name = .string
  · simp only [hkind, ne_eq, not_true_eq_false, if_false]
    refine hev.makeChannel.after_quiet fun channel => ?_
    refine (hev.openFile (untilNul (ev.textOf name)) (flags ||| closeOnExec) mode).after_quiet ?_
    intro opened
    cases opened with
    | ok fd => exact .pure _
    | error reason => exact .fail pos rfl
  · rw [if_pos hkind]
    exact fun _ _ => rfl

theorem tracks_attachCopy (source : Int) (pos : Pos) :
    Tracks defined (attachCopy ev source pos) some := by
  refine (hev.port source).after_quiet fun p => ?_
  cases p with
  | none => exact .fail pos rfl
  | some p => exact .pure _

theorem tracks_attachUnset (unset : PortPolicy) (fd : Nat) :
    Tracks defined (attachUnset ev unset fd) some := by
  cases unset with
  | close => exact .pure _
  | inherit =>
    refine (hev.port fd).after_quiet fun p => ?_
    cases p <;> exact .pure _

end

/-! ### Ops -/

variable {ev : Evaluator w F}

mutual

/-- **An op runs as it is walked.** On a flat store every op tracks its walk in the order of running.
The proof goes by the op; a list of ops is a list of steps that track a list of walks. -/
theorem eval_tracks (hev : FlatEvaluator ev defined) : ∀ op : ValuesOp F,
    Tracks defined (op.eval ev) op.namesAfter
  | .missing => by
    rw [ValuesOp.eval]
    exact (Tracks.pure []).congr fun A => by rw [ValuesOp.namesAfter]
  | .string text pos => by
    rw [ValuesOp.eval]
    exact (hev.makeString text).map.congr fun A => by rw [ValuesOp.namesAfter]
  | .variable n pos => by
    rw [ValuesOp.eval]
    refine (hev.lookup_bind rfl fun x => (hev.get x).map).congr fun A => ?_
    rw [ValuesOp.namesAfter, Option.bind_fun_some]
  | .compound parts pos => by
    rw [ValuesOp.eval]
    exact (hev.tracks_product (evalSteps_track hev parts)).congr fun A => by rw [ValuesOp.namesAfter]
  | .spaced items pos => by
    rw [ValuesOp.eval]
    exact (tracks_sequence (evalSteps_track hev items)).congr fun A => by rw [ValuesOp.namesAfter]
  | .subscript left index pos => by
    rw [ValuesOp.eval]
    refine ((eval_tracks hev left).bind fun vs => (tracks_single _ _ vs).after_quiet fun container =>
      (eval_tracks hev index).then_quiet fun keys => hev.tracks_indexAll container _ keys).congr
        fun A => ?_
    rw [ValuesOp.namesAfter]
  | .table items keys values pos => by
    have hpairs := tracks_pairUp (evalSteps_track hev keys) (evalSteps_track hev values)
    rw [ValuesOp.eval]
    refine ((eval_tracks hev items).bind fun list => hpairs.then_quiet fun pairs =>
      (hev.makeTable list pairs).map).congr fun A => ?_
    rw [ValuesOp.namesAfter]
  | .closure params captures chunk pos => by
    rw [ValuesOp.eval]
    refine ((hev.tracks_captureVariables pos captures.keys).then_quiet fun captured =>
      (hev.makeClosure _ captured).map).congr fun A => ?_
    rw [ValuesOp.namesAfter]
  | .chanCapture inner pos => by
    rw [ValuesOp.eval]
    refine (hev.captureOutput inner _ _ (eval_tracks hev inner)).congr fun A => ?_
    rw [ValuesOp.namesAfter]
  | .pipeline stages pos => by
    rw [ValuesOp.eval]
    refine (hev.runPipeline _ pos _ (execSteps_track hev stages)).congr fun A => ?_
    rw [ValuesOp.namesAfter]
  | .chunk pipelines pos => by
    rw [ValuesOp.eval]
    refine (tracks_lastOf (evalSteps_track hev pipelines) []).congr fun A => ?_
    rw [ValuesOp.namesAfter]
  | .var names values pos => by
    have hvalues := eval_tracks hev values
    by_cases hmissing : values = .missing
    · subst hmissing
      rw [ValuesOp.eval]
      refine (hev.tracks_defineEmpty names).map.congr fun A => ?_
      rw [ValuesOp.namesAfter, ValuesOp.namesAfter, Option.bind_some]
    · rw [eval_var hmissing]
      refine (hvalues.bind fun vs => tracks_matchNames fun pairs hpairs => ?_).congr fun A => by
        rw [ValuesOp.namesAfter]
      rw [← hpairs]
      exact (hev.tracks_defineAll pairs).map
  | .set names values pos => by
    rw [ValuesOp.eval]
    refine ((eval_tracks hev values).bind fun vs => tracks_matchNames fun pairs hpairs => ?_).congr
      fun A => by rw [ValuesOp.namesAfter]
    rw [← hpairs]
    exact (hev.tracks_assignAll pos pairs).map
  | .del names pos => by
    rw [ValuesOp.eval]
    exact (hev.tracks_removeAll names).map.congr fun A => by rw [ValuesOp.namesAfter]
  | .fn name closure pos => by
    rw [ValuesOp.eval]
    refine ((eval_tracks hev closure).bind fun vs => ?_).congr fun A => by rw [ValuesOp.namesAfter]
    match vs with
    | [v] => exact (hev.define (functionName name) v).map
    | [] | _ :: _ :: _ => exact .fail pos rfl
termination_by structural op => op

theorem evalSteps_track (hev : FlatEvaluator ev defined) : ∀ ops : List (ValuesOp F),
    TrackAll defined (evalSteps ev ops) (namesSteps ops)
  | [] => by
    rw [evalSteps, namesSteps]
    exact .nil
  | op :: ops => by
    rw [evalSteps, namesSteps]
    exact .cons (eval_tracks hev op) (evalSteps_track hev ops)
termination_by structural ops => ops

theorem exec_tracks (hev : FlatEvaluator ev defined) : ∀ f : FormOp F,
    Tracks defined (f.exec ev) f.namesAfter
  | ⟨command, args, ports, resolution, unset, pos⟩ => by
    rw [FormOp.exec]
    refine ((eval_tracks hev command).bind fun commandValues =>
      (eval_tracks hev args).bind fun argValues => (attachSteps_track hev ports unset 0).bind
        fun opened => call_tracks hev resolution _ rfl).congr fun A => ?_
    rw [FormOp.namesAfter]
termination_by structural f => f

theorem execSteps_track (hev : FlatEvaluator ev defined) : ∀ stages : List (Option (FormOp F)),
    List.Forall₂ (fun stage walk => Tracks defined stage.run walk) (execSteps ev stages)
      (stageNames stages)
  | [] => by
    rw [execSteps, stageNames]
    exact .nil
  | f :: stages => by
    rw [execSteps, stageNames]
    exact .cons (execStep_tracks hev f) (execSteps_track hev stages)
termination_by structural stages => stages

theorem execStep_tracks (hev : FlatEvaluator ev defined) : ∀ f : Option (FormOp F),
    Tracks defined (execStep ev f).run (stageName f)
  | none => by
    rw [execStep]
    exact (Tracks.pure []).congr fun A => by rw [stageName]
  | some f => by
    rw [execStep]
    exact (exec_tracks hev f).congr fun A => by rw [stageName]
termination_by structural f => f

/-- Calling the command of a form runs the op of a special form, and nothing otherwise. -/
theorem call_tracks (hev : FlatEvaluator ev defined) : ∀ (resolution : Resolution F)
    (c : CommandCall w F), c.special = specialStep ev resolution →
      Tracks defined (ev.call c) resolution.namesAfter
  | ⟨kind, function, special, op⟩, c, hc => by
    have hop := eval_tracks hev op
    cases kind with
    | special =>
      rw [specialStep] at hc
      exact (hev.callSpecial c _ _ hc hop).congr fun A => by rw [Resolution.namesAfter]
    | _ =>
      simp only [specialStep] at hc
      exact (hev.callPlain c hc).congr fun A => by simp only [Resolution.namesAfter]
termination_by structural resolution => resolution

theorem attachSteps_track (hev : FlatEvaluator ev defined) : ∀ (ports : List (Option (PortOp F)))
    (unset : PortPolicy) (fd : Nat),
    Tracks defined (attachAll ev unset fd (attachSteps ev ports)) (inTurn (portNames ports))
  | [], unset, fd => by
    rw [attachSteps, portNames]
    exact .pure []
  | slot :: ports, unset, fd => by
    rw [attachSteps, portNames]
    exact (attachStep_tracks hev slot unset fd).bind fun p =>
      (attachSteps_track hev ports unset (fd + 1)).map
termination_by structural ports => ports

theorem attachStep_tracks (hev : FlatEvaluator ev defined) : ∀ (slot : Option (PortOp F))
    (unset : PortPolicy) (fd : Nat),
    Tracks defined ((attachStep ev slot).getD (attachUnset ev unset fd)) (portName slot)
  | none, unset, fd => by
    rw [attachStep]
    exact (hev.tracks_attachUnset unset fd).congr fun A => by rw [portName]
  | some op, unset, fd => by
    rw [attachStep]
    exact (attach_tracks hev op).congr fun A => by rw [portName]
termination_by structural slot => slot

theorem attach_tracks (hev : FlatEvaluator ev defined) : ∀ op : PortOp F,
    Tracks defined (op.attach ev) op.namesAfter
  | .close pos => by
    rw [PortOp.attach]
    exact (Tracks.pure _).congr fun A => by rw [PortOp.namesAfter]
  | .dup source pos => by
    rw [PortOp.attach]
    exact (hev.tracks_attachCopy source pos).congr fun A => by rw [PortOp.namesAfter]
  | .file filename flags mode pos => by
    rw [PortOp.attach]
    exact (hev.tracks_attachFile flags mode pos (eval_tracks hev filename)).congr fun A => by
      rw [PortOp.namesAfter]
termination_by structural op => op

end

end FlatEvaluator

end ShellOps
