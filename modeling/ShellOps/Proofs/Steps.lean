/-
# Steps of a compilation, taken apart

`x.Gives s a s'` says that the step `x`, started in the state `s`, succeeds with `a` and leaves the
state `s'`. A step that is put together from others succeeds exactly when its parts do, one after
the other, so a successful run of a step can be taken apart into successful runs of what it is made
of. The names of an assignment are read from words alone (`scanWords`), which is how the special
forms are taken apart.
-/
import ShellOps.Compiler
import ShellOps.Proofs.Scope
import ShellOps.Special.Core

namespace ShellOps

variable {α β F : Type} {s s' : CompileState}

/-- The state in which a node one level deeper is compiled. -/
def CompileState.deeper (s : CompileState) : CompileState :=
  { s with
    depth := s.depth + 1
    stats := { s.stats with maxDepth := max s.stats.maxDepth (s.depth + 1) } }

@[simp] theorem CompileState.scopes_deeper (s : CompileState) : s.deeper.scopes = s.scopes := rfl

@[simp] theorem CompileState.captures_deeper (s : CompileState) :
    s.deeper.captures = s.captures := rfl

namespace CompileM

/-- What a step started in `s` gives, and the state it leaves. -/
def outcome (x : CompileM α) (s : CompileState) : Except Failure α × CompileState := x s

/-- The step succeeds from `s` with `a` and leaves `s'`. -/
def Gives (x : CompileM α) (s : CompileState) (a : α) (s' : CompileState) : Prop :=
  x.outcome s = (.ok a, s')

/-- Some run of the step succeeds with `a`. -/
def CanGive (x : CompileM α) (a : α) : Prop := ∃ s s', x.Gives s a s'

/-- Whether a step succeeds can be computed. -/
theorem exists_gives {x : CompileM α} (h : (x.outcome s).1.toBool = true) : ∃ a s', x.Gives s a s' := by
  rcases hout : x.outcome s with ⟨e | a, s'⟩
  · rw [hout] at h
    cases h
  · exact ⟨a, s', hout⟩

/-- Whether an op with some property comes out can be computed. -/
theorem exists_gives_some {x : CompileM (Option α)} (p : α → Bool)
    (h : (x.outcome s).1.toOption.join.any p) : ∃ a s', x.Gives s (some a) s' ∧ p a := by
  rcases hout : x.outcome s with ⟨e | _ | a, s'⟩
  · simp [hout, Except.toOption] at h
  · simp [hout, Except.toOption] at h
  · exact ⟨a, s', hout, by simpa [hout, Except.toOption] using h⟩

@[simp] theorem outcome_pure (a : α) (s : CompileState) :
    (pure a : CompileM α).outcome s = (.ok a, s) := rfl

@[simp] theorem outcome_throw (e : Failure) (s : CompileState) :
    (throw e : CompileM α).outcome s = (.error e, s) := rfl

theorem outcome_bind (x : CompileM α) (f : α → CompileM β) (s : CompileState) :
    (x >>= f).outcome s = match x.outcome s with
      | (.ok a, t) => (f a).outcome t
      | (.error e, t) => (.error e, t) := bind_apply x f s

theorem Gives.outcome_bind {x : CompileM α} {f : α → CompileM β} {a : α} {t : CompileState}
    (h : x.Gives s a t) : (x >>= f).outcome s = (f a).outcome t := by
  rw [CompileM.outcome_bind, h]

theorem outcome_resolve (n : Name) (s : CompileState) :
    (resolve n).outcome s = (.ok (s.scopes.resolve n s.captures).1,
      { s with captures := (s.scopes.resolve n s.captures).2 }) := rfl

theorem outcome_nested (o : Options) (pos : Pos) (x : CompileM α) (s : CompileState) :
    (nested o pos x).outcome s =
      if o.exceeds (s.depth + 1) then (.error (.rejected pos .tooDeep), s)
      else ((x.outcome s.deeper).1,
        { (x.outcome s.deeper).2 with depth := (x.outcome s.deeper).2.depth - 1 }) := rfl

@[simp] theorem gives_pure {a b : α} : (pure a : CompileM α).Gives s b s' ↔ b = a ∧ s' = s := by
  simp [Gives, eq_comm]

@[simp] theorem gives_throw {e : Failure} {b : α} : ¬ (throw e : CompileM α).Gives s b s' := by
  simp [Gives]

@[simp] theorem gives_reject {pos : Pos} {cause : Rejection} {b : α} :
    ¬ (reject pos cause : CompileM α).Gives s b s' := gives_throw

@[simp] theorem gives_malformed {cause : Malformed} {b : α} :
    ¬ (malformed cause : CompileM α).Gives s b s' := gives_throw

/-- Two steps in sequence succeed when the first does and the second does from where it ends. -/
@[simp] theorem gives_bind {x : CompileM α} {f : α → CompileM β} {b : β} :
    (x >>= f).Gives s b s' ↔ ∃ a t, x.Gives s a t ∧ (f a).Gives t b s' := by
  unfold Gives
  rw [outcome_bind]
  rcases x.outcome s with ⟨e | a, t⟩
  · simp
  · constructor
    · exact fun h => ⟨a, t, rfl, h⟩
    · rintro ⟨a', t', ht, h⟩
      obtain ⟨rfl, rfl⟩ : a = a' ∧ t = t' := by simpa using ht
      exact h

theorem discard_eq (x : CompileM α) : discard x = x >>= fun _ => pure () := rfl

@[simp] theorem gives_count {f : Stats → Stats} {u : Unit} :
    (count f).Gives s u s' ↔ s' = { s with stats := f s.stats } :=
  ⟨fun h => (Prod.mk.inj h).2.symm, fun h => h ▸ rfl⟩

@[simp] theorem gives_bindName {n : Name} {t : Ty} {u : Unit} :
    (CompileM.bind n t).Gives s u s' ↔ s' = { s with scopes := s.scopes.bind n t } :=
  ⟨fun h => (Prod.mk.inj h).2.symm, fun h => h ▸ rfl⟩

@[simp] theorem gives_unbind {n : Name} {u : Unit} :
    (unbind n).Gives s u s' ↔ s' = { s with scopes := s.scopes.unbind n } :=
  ⟨fun h => (Prod.mk.inj h).2.symm, fun h => h ▸ rfl⟩

@[simp] theorem gives_hasLocal {n : Name} {b : Bool} :
    (hasLocal n).Gives s b s' ↔ b = s.scopes.hasLocal n ∧ s' = s := by
  change (pure (s.scopes.hasLocal n) : CompileM Bool).Gives s b s' ↔ _
  rw [gives_pure]

@[simp] theorem gives_resolve {n : Name} {t : Option Ty} :
    (resolve n).Gives s t s' ↔ t = (s.scopes.resolve n s.captures).1 ∧
      s' = { s with captures := (s.scopes.resolve n s.captures).2 } := by
  simp [Gives, outcome_resolve, eq_comm]

theorem gives_mustResolve {n : Name} {pos : Pos} {t : Ty} :
    (mustResolve n pos).Gives s t s' ↔ (resolve n).Gives s (some t) s' := by
  unfold mustResolve
  rw [gives_bind]
  constructor
  · rintro ⟨a, t', hr, h⟩
    cases a with
    | none => exact absurd h gives_reject
    | some u =>
      obtain ⟨rfl, rfl⟩ := gives_pure.1 h
      exact hr
  · exact fun h => ⟨some t, s', h, gives_pure.2 ⟨rfl, rfl⟩⟩

/-- A node compiles one level deeper if that is allowed, and the level is counted back. -/
theorem gives_nested {o : Options} {pos : Pos} {x : CompileM α} {a : α} :
    (nested o pos x).Gives s a s' ↔ o.exceeds (s.depth + 1) = false ∧
      ∃ t, x.Gives s.deeper a t ∧ s' = { t with depth := t.depth - 1 } := by
  unfold Gives
  rw [outcome_nested]
  by_cases h : o.exceeds (s.depth + 1)
  · simp [h]
  · rw [if_neg h]
    rcases x.outcome s.deeper with ⟨r, t⟩
    simp only [Prod.mk.injEq, h, true_and]
    constructor
    · rintro ⟨rfl, rfl⟩
      exact ⟨t, ⟨rfl, rfl⟩, rfl⟩
    · rintro ⟨t', ⟨rfl, rfl⟩, rfl⟩
      exact ⟨rfl, rfl⟩

@[simp] theorem gives_forwardCaptures {inner : CaptureSet} {u : Unit} :
    (forwardCaptures inner).Gives s u s' ↔
      s' = { s with captures := (inner.forward s.scopes s.captures).1 } :=
  ⟨fun h => (Prod.mk.inj h).2.symm, fun h => h ▸ rfl⟩

end CompileM

/-! ### Closures -/

/-- The state in which the code of a closure with the given parameters starts. -/
def CompileState.entered (s : CompileState) (params : List Name) : CompileState :=
  { s with captures := ∅, scopes := params.foldl (·.bind · .any) s.scopes.push }

@[simp] theorem CompileState.outer_entered (s : CompileState) (params : List Name) :
    (s.entered params).scopes.outer = s.scopes.frames :=
  ScopeStack.outer_foldl_bind params .any s.scopes.push

@[simp] theorem CompileState.captures_entered (s : CompileState) (params : List Name) :
    (s.entered params).captures = ∅ := rfl

/-- The state after a closure: `t` is the state its code ended in, `scopes` and `outer` are the
frames and the captures of the code around it. -/
def CompileState.left (t : CompileState) (scopes : ScopeStack) (outer : CaptureSet) : CompileState :=
  { t with
    scopes
    captures := outer
    stats := { t.stats with
      closures := t.stats.closures + 1
      captures := t.stats.captures + t.captures.size } }

namespace CompileM

theorem outcome_enterClosure (params : List Name) (s : CompileState) :
    (enterClosure params).outcome s = (.ok s.captures, s.entered params) := rfl

/-- Leaving a closure takes its frame away and gives its captures. -/
theorem outcome_leaveClosure (outer : CaptureSet) (t : CompileState) :
    (leaveClosure outer).outcome t =
      match t.scopes.pop? with
      | none => (.error (.malformed .rootPopped), { t with captures := outer })
      | some scopes => (.ok t.captures, t.left scopes outer) := by
  unfold leaveClosure
  change (match t.scopes.pop? with
    | none => _
    | some scopes => _ : CompileM CaptureSet).outcome { t with captures := outer } = _
  cases t.scopes.pop? <;> rfl

end CompileM

/-- What a closure literal gives, by how its code ends. -/
theorem outcome_closureAround (o : Options) (pos : Pos) (params : List Name)
    (body : CompileM (List (ValuesOp F))) (s : CompileState) :
    (closureAround o pos params body).outcome s =
      if o.exceeds (s.depth + 1) then (.error (.rejected pos .tooDeep), s)
      else match body.outcome (s.deeper.entered params) with
        | (.error e, t) => (.error e, { t with depth := t.depth - 1 })
        | (.ok pipelines, t) =>
          match t.scopes.pop? with
          | none => (.error (.malformed .rootPopped),
              { t with captures := s.captures, depth := t.depth - 1 })
          | some scopes => (.ok ⟨.closureOf params pipelines t.captures pos, t.captures⟩,
              { t.left scopes s.captures with depth := t.depth - 1 }) := by
  unfold closureAround
  rw [CompileM.outcome_nested]
  by_cases h : o.exceeds (s.depth + 1)
  · rw [if_pos h, if_pos h]
  · rw [if_neg h, if_neg h, CompileM.outcome_bind, CompileM.outcome_enterClosure]
    simp only [CompileM.outcome_bind]
    rcases body.outcome (s.deeper.entered params) with ⟨e | pipelines, t⟩
    · rfl
    · simp only [CompileM.outcome_leaveClosure]
      cases t.scopes.pop? <;> rfl

/-- **A closure literal, taken apart.** Its code runs in a frame of its own with no captures yet;
when it is done, what it captured is what the closure captures, and the code around it goes on with
the captures it had. -/
theorem gives_closureAround {o : Options} {pos : Pos} {params : List Name}
    {body : CompileM (List (ValuesOp F))} {c : CompiledClosure F}
    (h : (closureAround o pos params body).Gives s c s') :
    ∃ pipelines t scopes, body.Gives (s.deeper.entered params) pipelines t ∧
      t.scopes.pop? = some scopes ∧
      c = ⟨.closureOf params pipelines t.captures pos, t.captures⟩ ∧
      s' = { t.left scopes s.captures with depth := t.depth - 1 } := by
  rw [CompileM.Gives, outcome_closureAround] at h
  split at h
  · simp at h
  · rcases hb : body.outcome (s.deeper.entered params) with ⟨e | pipelines, t⟩
    · simp [hb] at h
    · cases hp : t.scopes.pop? with
      | none => simp [hb, hp] at h
      | some scopes =>
        simp only [hb, hp, Prod.mk.injEq, Except.ok.injEq] at h
        exact ⟨pipelines, t, scopes, hb, hp, h.1.symm, h.2.symm⟩

/-- A closure literal whose captures the code around it takes on. -/
theorem gives_forwarding {closure : CompileM (CompiledClosure F)} {op : ValuesOp F} :
    (forwarding closure).Gives s op s' ↔ ∃ c t, closure.Gives s c t ∧ op = c.op ∧
      s' = { t with captures := (c.captures.forward t.scopes t.captures).1 } := by
  simp only [forwarding, CompileM.gives_bind, CompileM.gives_forwardCaptures, CompileM.gives_pure]
  constructor
  · rintro ⟨c, t, hc, -, t', rfl, rfl, rfl⟩
    exact ⟨c, t, hc, rfl, rfl⟩
  · rintro ⟨c, t, hc, rfl, rfl⟩
    exact ⟨c, t, hc, (), _, rfl, rfl, rfl⟩

/-! ### Commands -/

/-- What the command `n` is, by the kind that the name of its function has. -/
def commandOf (r : Registry F) (n : Name) (kind : Option Ty) : Command F :=
  if kind = some .closure then .plain (.bare .userFunction)
  else match r.findSpecial n with
    | some entry => .special entry
    | none =>
      match r.findFunction n with
      | some entry => .plain (.ofFunction entry)
      | none => .plain (.bare .external)

theorem resolveCommand_eq (r : Registry F) (n : Name) :
    resolveCommand r n = do return commandOf r n (← CompileM.resolve (functionName n)) := by
  unfold resolveCommand commandOf
  refine bind_congr fun kind => ?_
  by_cases hk : kind = some .closure
  · rw [if_pos hk, if_pos hk]
  · rw [if_neg hk, if_neg hk]
    cases r.findSpecial n with
    | some entry => rfl
    | none => cases r.findFunction n <;> rfl

theorem commandOf_eq_special {r : Registry F} {n : Name} {kind : Option Ty}
    {entry : Builtin (SpecialForm F)} (h : commandOf r n kind = .special entry) :
    kind ≠ some .closure ∧ r.findSpecial n = some entry := by
  unfold commandOf at h
  by_cases hk : kind = some .closure
  · simp [hk] at h
  · refine ⟨hk, ?_⟩
    rw [if_neg hk] at h
    cases hs : r.findSpecial n with
    | some e =>
      rw [hs] at h
      cases h
      rfl
    | none =>
      rw [hs] at h
      cases hf : r.findFunction n <;> simp [hf] at h

@[simp] theorem gives_resolveCommand {r : Registry F} {n : Name} {command : Command F} :
    (resolveCommand r n).Gives s command s' ↔
      command = commandOf r n (s.scopes.type? (functionName n)) ∧
      s' = { s with captures := (s.scopes.resolve (functionName n) s.captures).2 } := by
  rw [resolveCommand_eq]
  simp only [CompileM.gives_bind, CompileM.gives_resolve, CompileM.gives_pure,
    ScopeStack.resolve_fst]
  constructor
  · rintro ⟨kind, t, ⟨rfl, rfl⟩, rfl, rfl⟩
    exact ⟨rfl, rfl⟩
  · rintro ⟨rfl, rfl⟩
    exact ⟨_, _, ⟨rfl, rfl⟩, rfl, rfl⟩

theorem compileCommand_some (env : Env F) (w : Word) :
    compileCommand env (some w) = match w.sole? with
      | some head => commandHead env w.pos head (compilePrimary env head)
      | none => CompileM.reject w.pos .badCommand := by
  obtain ⟨pos, sigil, parts⟩ := w
  cases sigil with
  | some _ => rfl
  | none =>
    rcases parts with _ | ⟨⟨_, left, index⟩, _ | _⟩
    · rfl
    all_goals cases index <;> rfl

/-- A command word that compiles is a string, which is then looked up as a command, or a closure
literal. -/
theorem gives_compileCommand {env : Env F} {command : Option Word} {op : ValuesOp F} {c : Command F}
    (h : (compileCommand env command).Gives s (op, c) s') : ∃ w, command = some w ∧
      ((∃ pos text, w.sole? = some (.string pos text) ∧
          ∃ t, (compilePrimary env (.string pos text)).Gives s op t ∧
            (resolveCommand env.registry text).Gives t c s') ∨
        (∃ pos literal, w.sole? = some (.closure pos literal) ∧ c = .plain (.bare .closure) ∧
          (compilePrimary env (.closure pos literal)).Gives s op s')) := by
  cases command with
  | none =>
    simp only [compileCommand] at h
    exact absurd h CompileM.gives_malformed
  | some w =>
    refine ⟨w, rfl, ?_⟩
    rw [compileCommand_some] at h
    cases hw : w.sole? with
    | none =>
      rw [hw] at h
      exact absurd h CompileM.gives_reject
    | some head =>
      rw [hw] at h
      cases head with
      | string pos text =>
        simp only [commandHead, CompileM.gives_bind, CompileM.gives_pure] at h
        obtain ⟨op', t, hop, c', t', hc, heq, rfl⟩ := h
        obtain ⟨rfl, rfl⟩ := Prod.mk.inj heq
        exact .inl ⟨pos, text, rfl, t, hop, hc⟩
      | closure pos literal =>
        simp only [commandHead, CompileM.gives_bind, CompileM.gives_pure] at h
        obtain ⟨op', t, hop, heq, rfl⟩ := h
        obtain ⟨rfl, rfl⟩ := Prod.mk.inj heq
        exact .inr ⟨pos, literal, rfl, rfl, hop⟩
      | _ => exact absurd h CompileM.gives_reject

/-- A special form that heads a form is in the registry. -/
theorem findSpecial_of_compileCommand {env : Env F} {w : Option Word} {op : ValuesOp F}
    {entry : Builtin (SpecialForm F)} (h : (compileCommand env w).CanGive (op, .special entry)) :
    ∃ n, env.registry.findSpecial n = some entry := by
  obtain ⟨s, s', h⟩ := h
  obtain ⟨w, -, ⟨_, text, -, t, -, hcommand⟩ | ⟨_, _, -, hclosure, -⟩⟩ := gives_compileCommand h
  · obtain ⟨hspecial, -⟩ := gives_resolveCommand.1 hcommand
    exact ⟨text, (commandOf_eq_special hspecial.symm).2⟩
  · cases hclosure

/-! ### Special forms -/

/-- Whether an argument is the word `=`. -/
def isEquals (w : Option Word) : Bool := w.bind Word.plain? = some equals

/-- Reads names up to a word `=` or the end, doing `check` with each, from the words alone. Gives
the names and the place of the `=`, if there is one. -/
def scanWords (form : BindingForm) (check : Name → Pos → CompileM Unit) :
    List (Option Word) → CompileM (List Name × Option Pos)
  | [] => pure ([], none)
  | none :: _ => CompileM.malformed .missingArgument
  | some w :: rest =>
    if w.plain? = some equals then pure ([], some w.pos)
    else do
      let name ← mustName form w
      check name w.pos
      let (names, place) ← scanWords form check rest
      return (name :: names, place)

/-- Reading the names of an assignment does not look at how its arguments compile: the arguments
after the `=` are those that the names and the `=` leave. -/
theorem scanNames_eq_scanWords (form : BindingForm) (check : Name → Pos → CompileM Unit) :
    ∀ args : List (Argument F), scanNames form check args = do
      let (names, place) ← scanWords form check (args.map (·.word))
      return (names, place.map fun pos => (pos, args.drop (names.length + 1)))
  | [] => by simp [scanNames, scanWords]
  | ⟨none, _, _⟩ :: rest => rfl
  | ⟨some w, compile, closure⟩ :: rest => by
    simp only [scanNames, List.map_cons, scanWords, Argument.must, pure_bind]
    split
    · simp
    · rw [scanNames_eq_scanWords form check rest]
      simp

theorem word_compileArg (env : Env F) (w : Option Word) : (compileArg env w).word = w := by
  cases w <;> simp [compileArg]

theorem words_compileArgs (env : Env F) (ws : List (Option Word)) :
    (compileArgs env ws).map (·.word) = ws := by
  induction ws with
  | nil => simp [compileArgs]
  | cons w ws ih => rw [compileArgs, List.map_cons, word_compileArg, ih]

/-- What a run of `must` gives is the word of the argument. -/
theorem word_of_must {a : Argument F} {w : Word} (h : a.must.CanGive w) : a.word = some w := by
  obtain ⟨s, s', h⟩ := h
  unfold Argument.must at h
  cases hword : a.word with
  | none =>
    rw [hword] at h
    exact absurd h CompileM.gives_malformed
  | some w' =>
    rw [hword] at h
    rw [(CompileM.gives_pure.1 h).1]

/-- The name that a word gives, or the rejection of the word. -/
theorem mustName_eq (form : BindingForm) (w : Word) :
    (∃ n, w.plain? = some n ∧ n ≠ [] ∧ n ≠ equals ∧ mustName form w = pure n) ∨
      mustName form w = CompileM.reject w.pos (.expectedName form) := by
  unfold mustName
  cases hw : w.plain? with
  | none => exact .inr rfl
  | some n =>
    by_cases hn : n = [] ∨ n = equals
    · exact .inr (if_pos hn)
    · obtain ⟨h₁, h₂⟩ := not_or.1 hn
      exact .inl ⟨n, rfl, h₁, h₂, if_neg hn⟩

theorem plain_of_mustName {form : BindingForm} {w : Word} {n : Name} (h : (mustName form w).CanGive n) :
    w.plain? = some n := by
  obtain ⟨s, s', h⟩ := h
  obtain ⟨m, hm, -, -, hmust⟩ | hmust := mustName_eq form w
  · rw [hmust] at h
    rw [hm, (CompileM.gives_pure.1 h).1]
  · rw [hmust] at h
    exact absurd h CompileM.gives_reject

/-- The form `fn` takes a name and a closure literal, and compiles the literal with the function
bound. -/
theorem gives_compileFn {call : SpecialCall F} {r : Option (ValuesOp F)}
    (h : (compileFn call).Gives s r s') :
    ∃ nameArg bodyArg w n b pos literal step closure, call.args = [nameArg, bodyArg] ∧
      nameArg.word = some w ∧ w.plain? = some n ∧
      bodyArg.word = some b ∧ b.sole? = some (.closure pos literal) ∧ bodyArg.closure = some step ∧
      (forwarding step).Gives { s with scopes := s.scopes.bind (functionName n) .closure } closure s' ∧
      r = some (.fn n closure call.pos) := by
  unfold compileFn at h
  generalize call.args = args at h ⊢
  match args with
  | [] | [_] | _ :: _ :: _ :: _ => exact absurd h CompileM.gives_reject
  | [nameArg, bodyArg] =>
    simp only [Argument.must] at h
    cases hword : nameArg.word with
    | none => simp [hword] at h
    | some w =>
      simp only [hword, pure_bind] at h
      obtain ⟨n, hplain, -, -, hmust⟩ | hmust := mustName_eq .fn w
      · rw [hmust, pure_bind] at h
        cases hbody : bodyArg.word with
        | none => simp [hbody] at h
        | some b =>
          simp only [hbody, pure_bind] at h
          cases hsole : b.sole? with
          | none => simp [hsole] at h
          | some head =>
            cases head with
            | closure pos literal =>
              cases hstep : bodyArg.closure with
              | none => simp [hsole, hstep] at h
              | some step =>
                simp only [hsole, hstep] at h
                obtain ⟨_, t, hbind, h⟩ := CompileM.gives_bind.1 h
                obtain ⟨closure, u, hclosure, h⟩ := CompileM.gives_bind.1 h
                obtain ⟨hop, rfl⟩ := CompileM.gives_pure.1 h
                obtain rfl := CompileM.gives_bindName.1 hbind
                exact ⟨nameArg, bodyArg, w, n, b, pos, literal, step, closure, rfl, hword, hplain, hbody,
                  hsole, hstep, hclosure, hop⟩
            | _ => simp [hsole] at h
      · rw [hmust] at h
        simp at h

/-- Every special form of the registry is one of the four that bind names, under its own name. -/
def Registry.CoreOnly (r : Registry F) : Prop :=
  ∀ n entry, r.findSpecial n = some entry → ∃ f : BindingForm, n = utf8 f.name ∧ entry.body = f.compile

namespace Registry

theorem coreOnly_empty : (empty : Registry F).CoreOnly := by
  intro n entry h
  simp [findSpecial, empty] at h

theorem CoreOnly.registerForm {r : Registry F} (h : r.CoreOnly) (f : BindingForm) :
    (r.registerSpecial (utf8 f.name) f.compile).CoreOnly := by
  intro n entry hn
  rw [findSpecial_registerSpecial] at hn
  by_cases hf : utf8 f.name = n
  · rw [if_pos hf] at hn
    obtain rfl := Option.some.inj hn
    exact ⟨f, hf.symm, rfl⟩
  · rw [if_neg hf] at hn
    exact h n entry hn

/-- Registering the four forms that bind names adds no other. -/
theorem CoreOnly.registerCore {r : Registry F} (h : r.CoreOnly) : r.registerCore.CoreOnly :=
  (((h.registerForm .var).registerForm .set).registerForm .del).registerForm .fn

theorem CoreOnly.unregister {r : Registry F} (h : r.CoreOnly) (n : Name) :
    (r.unregisterSpecial n).CoreOnly := by
  intro m entry hm
  rw [findSpecial_unregisterSpecial] at hm
  split at hm
  · cases hm
  · exact h m entry hm

end Registry

/-! ### Whole scripts -/

/-- The answer to a script, by how its pipelines compile. -/
theorem compile_eq (c : Compiler F) (source : Source) (chunk : Chunk) (root : Frame) :
    c.compile source chunk root =
      match (compilePipelines ⟨c.registry, c.options, source⟩ chunk.pipelines).outcome (.ofRoot root) with
      | (.ok ops, s) => .ok ⟨.ok (.chunk ops chunk.pos), s.stats⟩
      | (.error (.rejected pos cause), s) => .ok ⟨.error (cause.diagnose source pos), s.stats⟩
      | (.error (.malformed cause), _) => .error cause := by
  obtain ⟨pos, pipelines⟩ := chunk
  change (match (compileChunk ⟨c.registry, c.options, source⟩ ⟨pos, pipelines⟩).outcome (.ofRoot root) with
    | (.ok op, s) => _
    | (.error (.rejected pos cause), s) => _
    | (.error (.malformed cause), _) => _) = _
  simp only [compileChunk, CompileM.outcome_bind]
  rcases (compilePipelines ⟨c.registry, c.options, source⟩ pipelines).outcome (.ofRoot root)
    with ⟨(_ | _) | _, _⟩ <;> rfl

/-- Whether a script is answered, and with a result of some kind, can be computed. -/
theorem exists_answer (c : Compiler F) (source : Source) (chunk : Chunk) (root : Frame)
    (p : CompileResult F → Bool) (h : (c.compile source chunk root).toOption.any p) :
    ∃ r, c.compile source chunk root = .ok r ∧ p r := by
  rcases hc : c.compile source chunk root with e | r
  · simp [hc, Except.toOption] at h
  · exact ⟨r, rfl, by simpa [hc, Except.toOption] using h⟩

/-! ### Small scripts

Short ways to write down scripts, all of whose nodes are at offset 0. -/

/-- The word that is one primary. -/
def wordOf (head : Primary) : Word := ⟨0, none, [⟨0, head, none⟩]⟩

/-- The form with a string as its command and one primary for each argument. -/
def formOf (command : String) (args : List Primary) : Form :=
  ⟨0, some (wordOf (.string 0 (utf8 command))), 0, args.map fun p => some (wordOf p), []⟩

/-- The code with a pipeline for each form. -/
def codeOf (forms : List Form) : Chunk := ⟨0, forms.map fun f => ⟨0, [f]⟩⟩

/-- A closure literal. -/
def closureOf (params : List String) (forms : List Form) : Closure :=
  ⟨0, params.map utf8, codeOf forms⟩

/-- A redirection of the output to a file. -/
def intoFile (filename : Primary) : Redirection := ⟨0, 1, .file 0 (some (wordOf filename))⟩

/-- The four forms that bind names, under the default options. -/
def coreEnv : Env F := ⟨Registry.empty.registerCore, {}, ⟨[], []⟩⟩

/-- The compiler with those forms and options. -/
def coreCompiler : Compiler F := ⟨Registry.empty.registerCore, {}⟩

theorem coreOnly_coreEnv : (coreEnv : Env F).registry.CoreOnly :=
  Registry.coreOnly_empty.registerCore

end ShellOps
