/-
# Functions that call themselves

The form `fn` binds the name of a function before its body is compiled, so a body that calls the
function captures that name. When the form runs, the closure is made first, from variables that are
looked up before the name is defined. So the two orders differ for exactly one name: the function's
own. A body that does not refer to it finds all it captures; one that does gets the variable that had
the name before, and without one the definition fails.
-/
import ShellOps.Machine.Basic
import ShellOps.Proofs.Captures
import ShellOps.Proofs.Coherence
import ShellOps.Proofs.Running

namespace ShellOps

variable {w : World} {F : Type}

/-! ### The words of the form -/

/-- The words are the name of a function and the closure literal that is its body. -/
def DefinesFunction (args : List (Option Word)) (name : Name) (literal : Closure) : Prop :=
  ∃ nameWord bodyWord pos, args = [some nameWord, some bodyWord] ∧ nameWord.plain? = some name ∧
    bodyWord.sole? = some (.closure pos (some literal))

/-- The code of the literal refers to the name outside: a look-up of it, in closures inside the code
too, ends below the frame of the code. -/
def Closure.RefersTo (r : Registry F) (s : ScopeStack) (c : Closure) (n : Name) : Prop :=
  ∃ l ∈ ((walkClosure r c).trail s).lookups, l.name = n ∧ (l.typeBelow s.depth).isSome

/-- The body of a function refers to the function itself, which is bound where the body is compiled. -/
def Closure.CallsItself (r : Registry F) (s : ScopeStack) (c : Closure) (name : Name) : Prop :=
  c.RefersTo r (s.bind (functionName name) .closure) (functionName name)

theorem compileArgs_eq_pair {env : Env F} {args : List (Option Word)} {a b : Argument F}
    (h : compileArgs env args = [a, b]) :
    ∃ x y, args = [x, y] ∧ a = compileArg env x ∧ b = compileArg env y := by
  match args with
  | [] | [_] | _ :: _ :: _ :: _ => simp [compileArgs] at h
  | [x, y] =>
    simp only [compileArgs, List.cons.injEq, and_true] at h
    exact ⟨x, y, rfl, h.1.symm, h.2.symm⟩

/-- The step of a word that is a closure literal and nothing else compiles that literal. -/
theorem compileLiteral_of_sole {env : Env F} {b : Word} {pos : Pos} {literal : Option Closure}
    {step : CompileM (CompiledClosure F)} (hsole : b.sole? = some (.closure pos literal))
    (hstep : compileLiteral? env b = some step) :
    ∃ c, literal = some c ∧ step = compileClosure env c := by
  obtain ⟨p, sigil, parts⟩ := b
  unfold Word.sole? at hsole
  split at hsole
  · next hparts =>
    dsimp only at hparts
    obtain rfl := Option.some.inj hsole
    subst hparts
    cases literal with
    | none => simp [compileLiteral?] at hstep
    | some c =>
      simp only [compileLiteral?, Option.some.injEq] at hstep
      exact ⟨c, rfl, hstep.symm⟩
  · cases hsole

/-- A closure literal captures the names that its code refers to, and all of them are visible where it
stands. -/
theorem captures_of_compileClosure {env : Env F} (hcore : env.registry.CoreOnly) {c : Closure}
    {compiled : CompiledClosure F} {s s' : CompileState}
    (h : (compileClosure env c).Gives s compiled s') :
    ∃ code : ClosureBody F, compiled.op = .closure code.params code.captures code.chunk code.pos ∧
      code.params = c.params ∧ code.pos = c.pos ∧
      ∀ n, (n ∈ code.captures ↔ c.RefersTo env.registry s.scopes n) ∧
        (n ∈ code.captures → (s.scopes.type? n).isSome) := by
  obtain ⟨pos, params, ⟨_, pipelines⟩⟩ := c
  simp only [compileClosure] at h
  obtain ⟨-, -, ⟨ops, hop⟩, hexact⟩ := (compilePipelines_follows env hcore pipelines).closure h
  obtain ⟨-, -, hvisible⟩ :=
    (compilePipelines_keepsCoherent env hcore pipelines).state_after_closure h
  refine ⟨⟨params, compiled.captures, .chunk ops pos, pos⟩, hop, rfl, rfl, fun n => ?_⟩
  have hframes := (walkPipelines env.registry pipelines).frames_closure params s.scopes
  simp only [Std.ExtTreeMap.mem_iff_isSome_getElem?]
  refine ⟨?_, fun hn => ?_⟩
  · rw [hexact n, Closure.RefersTo, walkClosure]
    constructor
    · intro hsome
      obtain ⟨t, ht⟩ := Option.isSome_iff_exists.1 hsome
      obtain ⟨l, hl, hname, htype⟩ := (firstBelow_eq_some_iff hframes).1 ht
      exact ⟨l, hl, hname, Option.isSome_iff_exists.2 ⟨t, htype⟩⟩
    · rintro ⟨l, hl, hname, hsome⟩
      obtain ⟨t, htype⟩ := Option.isSome_iff_exists.1 hsome
      exact Option.isSome_iff_exists.2 ⟨t, (firstBelow_eq_some_iff hframes).2 ⟨l, hl, hname, htype⟩⟩
  · obtain ⟨t, ht⟩ := Option.isSome_iff_exists.1 hn
    exact Option.isSome_iff_exists.2 ⟨t, hvisible n t ht⟩

/-! ### Capturing -/

/-- The evaluator looks names up among the bindings of its state, and leaves those as they are. -/
def LooksUp (ev : Evaluator w F) (bound : w.State → Name → Option w.Variable) : Prop :=
  ∀ n σ, ∃ σ', Run.outcome (ev.lookup n) σ = (.ok (bound σ n), σ') ∧ bound σ' = bound σ

section

variable {ev : Evaluator w F} {bound : w.State → Name → Option w.Variable} (hev : LooksUp ev bound)
include hev

/-- One more name to capture. -/
theorem outcome_captureVariables_cons (pos : Pos) (n : Name) (names : List Name) (σ : w.State) :
    ∃ σ', bound σ' = bound σ ∧ Run.outcome (captureVariables ev pos (n :: names)) σ =
      match bound σ n with
      | some v => Run.outcome (do return (n, v) :: (← captureVariables ev pos names)) σ'
      | none => (.error ⟨pos, .capturedNotFound n⟩, σ') := by
  obtain ⟨σ', hlookup, hkeeps⟩ := hev n σ
  refine ⟨σ', hkeeps, ?_⟩
  rw [captureVariables, Run.outcome_bind, hlookup]
  cases bound σ n <;> rfl

/-- Names that all have a variable are captured with it. -/
theorem captureVariables_of_bound (pos : Pos) : ∀ (names : List Name) (σ : w.State),
    (∀ n ∈ names, (bound σ n).isSome) →
    ∃ captured σ', Run.outcome (captureVariables ev pos names) σ = (.ok captured, σ') ∧
      bound σ' = bound σ ∧ captured.map (·.1) = names ∧ ∀ p ∈ captured, bound σ p.1 = some p.2
  | [], σ, _ => ⟨[], σ, rfl, rfl, rfl, List.forall_mem_nil _⟩
  | n :: names, σ, hall => by
    obtain ⟨hn, hnames⟩ := List.forall_mem_cons.1 hall
    obtain ⟨v, hv⟩ := Option.isSome_iff_exists.1 hn
    obtain ⟨σ₁, hkeeps, hrun⟩ := outcome_captureVariables_cons hev pos n names σ
    rw [← hkeeps] at hnames
    obtain ⟨captured, σ₂, hrest, hkeeps₂, hfirsts, hbound⟩ :=
      captureVariables_of_bound pos names σ₁ hnames
    rw [hkeeps] at hbound hkeeps₂
    refine ⟨(n, v) :: captured, σ₂, ?_, hkeeps₂, by simp [hfirsts], List.forall_mem_cons.2 ⟨hv, hbound⟩⟩
    rw [hrun, hv]
    simp only [Run.outcome_bind, hrest]
    rfl

/-- Capturing fails at a name without variable, if it is the only one. -/
theorem captureVariables_of_missing (pos : Pos) {n : Name} : ∀ (names : List Name) (σ : w.State),
    n ∈ names → bound σ n = none → (∀ m ∈ names, m ≠ n → (bound σ m).isSome) →
    ∃ σ', Run.outcome (captureVariables ev pos names) σ = (.error ⟨pos, .capturedNotFound n⟩, σ') ∧
      bound σ' = bound σ
  | [], _, hn, _, _ => absurd hn List.not_mem_nil
  | m :: names, σ, hn, hmissing, hothers => by
    obtain ⟨σ₁, hkeeps, hrun⟩ := outcome_captureVariables_cons hev pos m names σ
    by_cases hm : m = n
    · subst hm
      rw [hmissing] at hrun
      exact ⟨σ₁, hrun, hkeeps⟩
    · obtain ⟨v, hv⟩ := Option.isSome_iff_exists.1 (hothers m List.mem_cons_self hm)
      have hn' : n ∈ names := (List.mem_cons.1 hn).resolve_left (Ne.symm hm)
      obtain ⟨σ₂, hrest, hkeeps₂⟩ := captureVariables_of_missing pos names σ₁ hn'
        (by rw [hkeeps, hmissing])
        (fun k hk hkn => by rw [hkeeps]; exact hothers k (List.mem_cons_of_mem m hk) hkn)
      refine ⟨σ₂, ?_, hkeeps₂.trans hkeeps⟩
      rw [hrun, hv]
      simp only [Run.outcome_bind, hrest]

end

/-! ### Defining -/

/-- The op of the form makes the closure from what it captures, and then defines the name. -/
theorem eval_fn (ev : Evaluator w F) (name : Name) (code : ClosureBody F) (pos : Pos) :
    (ValuesOp.fn name (.closure code.params code.captures code.chunk code.pos) pos).eval ev = do
      let captured ← captureVariables ev code.pos code.captures.keys
      ev.define (functionName name) (← ev.makeClosure code captured)
      return [] := by
  simp only [ValuesOp.eval, bind_assoc, pure_bind]

/-- **A function captures what its name meant before.** Let a form `fn` compile, and let every name
that is visible before it have a variable. Unless the body refers to the function itself and its name
has no variable yet, running the op makes a closure from the variables that the names have at that
point, its own name among them if the body refers to it, and then defines the name. Otherwise the run
fails because the name is not found, and defines nothing. -/
theorem fn_captures_earlier_binding (env : Env F) (hcore : env.registry.CoreOnly) {ev : Evaluator w F}
    {bound : w.State → Name → Option w.Variable} (hev : LooksUp ev bound) {source : Source}
    {pos argsPos : Pos} {args : List (Option Word)} {s s' : CompileState} {op : ValuesOp F}
    (h : (compileFn ⟨source, pos, argsPos, compileArgs env args⟩).Gives s (some op) s') (σ : w.State)
    (hbound : ∀ n, (s.scopes.type? n).isSome → (bound σ n).isSome) :
    ∃ (name : Name) (literal : Closure) (code : ClosureBody F),
      DefinesFunction args name literal ∧
      op = .fn name (.closure code.params code.captures code.chunk code.pos) pos ∧
      code.params = literal.params ∧ code.pos = literal.pos ∧
      (¬ (literal.CallsItself env.registry s.scopes name ∧ bound σ (functionName name) = none) →
        ∃ captured σ₁, bound σ₁ = bound σ ∧ captured.map (·.1) = code.captures.keys ∧
        (functionName name ∈ captured.map (·.1) ↔ literal.CallsItself env.registry s.scopes name) ∧
        (∀ p ∈ captured, bound σ p.1 = some p.2) ∧
        Run.outcome (op.eval ev) σ = Run.outcome (do
          ev.define (functionName name) (← ev.makeClosure code captured)
          return []) σ₁) ∧
      (literal.CallsItself env.registry s.scopes name → bound σ (functionName name) = none →
        ∃ σ₁, bound σ₁ = bound σ ∧ Run.outcome (op.eval ev) σ =
          (.error ⟨literal.pos, .capturedNotFound (functionName name)⟩, σ₁)) := by
  obtain ⟨nameArg, bodyArg, nameWord, name, bodyWord, _, literal?, step, closure, hargs, hname, hplain,
    hbody, hsole, hstep, hclosure, hop⟩ := gives_compileFn h
  obtain ⟨x, y, rfl, rfl, rfl⟩ := compileArgs_eq_pair hargs
  rw [word_compileArg] at hname hbody
  subst hname hbody
  simp only [compileArg] at hstep
  obtain ⟨literal, rfl, rfl⟩ := compileLiteral_of_sole hsole hstep
  obtain ⟨compiled, t, hcompiled, rfl, -⟩ := gives_forwarding.1 hclosure
  obtain ⟨code, hcode, hparams, hpos, hcaptures⟩ := captures_of_compileClosure hcore hcompiled
  rw [hcode] at hop
  obtain rfl := Option.some.inj hop
  -- only the name of the function itself may be captured without having been visible before
  have hothers : ∀ m ∈ code.captures.keys, m ≠ functionName name → (bound σ m).isSome := by
    intro m hm hne
    have hvisible := (hcaptures m).2 (Std.ExtTreeMap.mem_keys.1 hm)
    exact hbound m (by rwa [s.scopes.type?_bind_of_ne .closure (Ne.symm hne)] at hvisible)
  have hkeys : functionName name ∈ code.captures.keys ↔
      literal.CallsItself env.registry s.scopes name :=
    Std.ExtTreeMap.mem_keys.trans (hcaptures (functionName name)).1
  refine ⟨name, literal, code, ⟨nameWord, bodyWord, _, rfl, hplain, hsole⟩, rfl, hparams, hpos, ?_, ?_⟩
  · intro hfine
    have hall : ∀ m ∈ code.captures.keys, (bound σ m).isSome := by
      intro m hm
      by_cases hself : m = functionName name
      · subst hself
        rw [Option.isSome_iff_ne_none]
        exact fun hnone => hfine ⟨hkeys.1 hm, hnone⟩
      · exact hothers m hm hself
    obtain ⟨captured, σ₁, hrun, hkeeps, hfirsts, hvalues⟩ :=
      captureVariables_of_bound hev code.pos code.captures.keys σ hall
    refine ⟨captured, σ₁, hkeeps, hfirsts, by rw [hfirsts, hkeys], hvalues, ?_⟩
    rw [eval_fn, Run.outcome_bind, hrun]
  · intro hrecursive hnone
    obtain ⟨σ₁, hrun, hkeeps⟩ := captureVariables_of_missing hev code.pos code.captures.keys σ
      (hkeys.2 hrecursive) hnone hothers
    refine ⟨σ₁, hkeeps, ?_⟩
    rw [eval_fn, Run.outcome_bind, hrun, hpos]

/-! ### On the machine -/

theorem type?_ofRoot (root : Frame) (n : Name) :
    (CompileState.ofRoot root).scopes.type? n = root[n]? := by
  rw [ScopeStack.type?_eq]
  exact Option.or_none

/-- The machine looks names up in its frame. -/
theorem Machine.looksUp_evaluator : ∀ depth, LooksUp (Machine.evaluator depth) fun σ n => σ.frame[n]?
  | 0 | _ + 1 => fun n σ => ⟨σ.record (.lookup n σ.frame[n]?), rfl, rfl⟩

/-- The variables that a closure captured, by number. -/
def Machine.Value.captured : Machine.Value → List (Name × Nat)
  | .closure _ captured => captured
  | _ => []

/-- `fn f` with a body. -/
def definitionOf (body : Closure) : SpecialCall Machine.Function :=
  ⟨⟨[], []⟩, 0, 0, compileArgs coreEnv
    [some (wordOf (.string 0 (utf8 "f"))), some (wordOf (.closure 0 (some body)))]⟩

/-- The code `{ |n| put { f $n $x } }`. -/
def nestedCall : Closure :=
  closureOf ["n"] [formOf "put" [.closure 0 (some (closureOf []
    [formOf "f" [.variable 0 (utf8 "n"), .variable 0 (utf8 "x")]]))]]

/-- A machine with variable 0 under the name `x` and variable 1 under `fn-f`. -/
def twoNamed : Machine.State :=
  (({} : Machine.State).bindNew (utf8 "x") (.string [])).bindNew (utf8 "fn-f") (.string [])

/-- A call in a closure of the body counts, and the variable that `fn-f` had before is captured. -/
theorem fn_captures_earlier_binding_nested :
    (∀ n, ((CompileState.ofRoot {(utf8 "x", .any)}).scopes.type? n).isSome →
      (twoNamed.frame[n]?).isSome) ∧
    nestedCall.CallsItself (coreEnv : Env Machine.Function).registry
      (CompileState.ofRoot {(utf8 "x", .any)}).scopes (utf8 "f") ∧
    ∃ op s', (compileFn (definitionOf nestedCall)).Gives (.ofRoot {(utf8 "x", .any)}) (some op) s' ∧
      ∃ code captured σ₁, (utf8 "fn-f", 1) ∈ captured ∧
        Run.outcome (op.eval Machine.top) twoNamed = Run.outcome (do
          Machine.top.define (utf8 "fn-f") (← Machine.top.makeClosure code captured)
          return []) σ₁ := by
  have hcalls : nestedCall.CallsItself (coreEnv : Env Machine.Function).registry
      (CompileState.ofRoot {(utf8 "x", .any)}).scopes (utf8 "f") := by
    unfold Closure.CallsItself Closure.RefersTo
    decide +kernel
  have hbound : ∀ n, ((CompileState.ofRoot {(utf8 "x", .any)}).scopes.type? n).isSome →
      (twoNamed.frame[n]?).isSome := by
    have hall : ∀ n ∈ Std.ExtTreeMap.keys ({(utf8 "x", .any)} : Frame), (twoNamed.frame[n]?).isSome := by
      decide +kernel
    intro n hn
    rw [type?_ofRoot] at hn
    exact hall n (Std.ExtTreeMap.mem_keys.2 (Std.ExtTreeMap.mem_iff_isSome_getElem?.2 hn))
  obtain ⟨op, s', h, -⟩ := CompileM.exists_gives_some (x := compileFn (definitionOf nestedCall))
    (s := .ofRoot {(utf8 "x", .any)}) (fun _ => true) (by decide +kernel)
  obtain ⟨name, literal, code, ⟨nameWord, bodyWord, pos, hargs, hname, hbody⟩, -, -, -, hfine, -⟩ :=
    fn_captures_earlier_binding coreEnv coreOnly_coreEnv (Machine.looksUp_evaluator Machine.maxCallDepth)
      h twoNamed hbound
  simp only [List.cons.injEq, Option.some.injEq, and_true] at hargs
  obtain ⟨rfl, rfl⟩ := hargs
  obtain rfl : utf8 "f" = name := Option.some.inj hname
  simp only [wordOf, Word.sole?, Option.some.injEq, Primary.closure.injEq] at hbody
  obtain ⟨-, rfl⟩ := hbody
  have hfn : twoNamed.frame[functionName (utf8 "f")]? = some 1 := by decide +kernel
  obtain ⟨captured, σ₁, -, -, hself, hvalues, hrun⟩ := hfine fun hboth => by
    rw [hfn] at hboth
    cases hboth.2
  obtain ⟨⟨_, v⟩, hp, rfl⟩ := List.mem_map.1 (hself.2 hcalls)
  obtain rfl : 1 = v := Option.some.inj (hfn.symm.trans (hvalues _ hp))
  exact ⟨hbound, hcalls, op, s', h, code, captured, σ₁, hp, hrun⟩

/-- The code `{ f }`. -/
def selfCall : Closure := closureOf [] [formOf "f" []]

/-- A machine with variable 0 under the name `fn-f`. -/
def oneNamed : Machine.State := ({} : Machine.State).bindNew (utf8 "fn-f") (.string [])

/-- **A function that calls itself does not find itself.** The form `fn f { f }` compiles where no name
is visible. Its run fails if `fn-f` is not defined; and if it is, the new function, which variable 1
holds, has captured the old one. -/
theorem recursive_functions_miss_themselves :
    (∀ n, (CompileState.ofRoot ∅).scopes.type? n = none) ∧
    ∃ op s', (compileFn (definitionOf selfCall)).Gives (.ofRoot ∅) (some op) s' ∧
      (∃ σ, Run.outcome (op.eval Machine.top) {} = (.error ⟨0, .capturedNotFound (utf8 "fn-f")⟩, σ)) ∧
      ∃ values σ, Run.outcome (op.eval Machine.top) oneNamed = (.ok values, σ) ∧
        σ.frame[utf8 "fn-f"]? = some 1 ∧ (σ.valueOf 1).captured = [(utf8 "fn-f", 0)] := by
  refine ⟨fun n => by rw [type?_ofRoot]; simp, ?_⟩
  obtain ⟨op, s', h, hp⟩ := CompileM.exists_gives_some (x := compileFn (definitionOf selfCall))
    (s := .ofRoot ∅) (fun op => decide (
      (Run.outcome (op.eval Machine.top) {}).1.map (fun _ => ()) =
        .error ⟨0, .capturedNotFound (utf8 "fn-f")⟩ ∧
      (Run.outcome (op.eval Machine.top) oneNamed).1.isOk = true ∧
      (Run.outcome (op.eval Machine.top) oneNamed).2.frame[utf8 "fn-f"]? = some 1 ∧
      ((Run.outcome (op.eval Machine.top) oneNamed).2.valueOf 1).captured = [(utf8 "fn-f", 0)]))
    (by decide +kernel)
  obtain ⟨hfails, hok, hnew, hold⟩ := of_decide_eq_true hp
  rcases hfresh : Run.outcome (op.eval Machine.top) {} with ⟨e | values, σ⟩
  · rcases hnamed : Run.outcome (op.eval Machine.top) oneNamed with ⟨e' | values, σ'⟩
    · rw [hnamed] at hok
      cases hok
    · rw [hfresh] at hfails
      obtain rfl := Except.error.inj hfails
      rw [hnamed] at hnew hold
      exact ⟨op, s', h, ⟨σ, hfresh⟩, values, σ', hnamed, hnew, hold⟩
  · rw [hfresh] at hfails
    cases hfails

end ShellOps
