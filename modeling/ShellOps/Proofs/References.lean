/-
# Closed scripts are the ones that compile

Without special forms nothing but a closure literal binds names, so whether a script compiles can be
read off its references: each has to be bound by the root frame or be a parameter of a closure around
it. The script is rejected for the first reference, in the order of compiling, that is not.

One statement goes through every tree (`Resolves`): if the frames bind every reference, the tree
compiles and leaves frames and depth as they were; if not, compiling stops at the first that they do
not bind. Put in sequence, two pieces have the references of the first, then those of the second; in
the code of a closure, a reference counts as bound if it is a parameter. The number of nodes bounds
the depth, so the limit is never met.
-/
import ShellOps.Proofs.Effects
import ShellOps.Proofs.Survey

namespace ShellOps

variable {α β F : Type} {s s' : CompileState} {o : Options} {v w : Survey}

/-! ### Scripts that only their references can fail -/

/-- The primary can be a command. -/
def Primary.isCommand : Primary → Bool
  | .string .. | .closure .. => true
  | _ => false

/-- The descriptors that a redirection names. -/
def Redirection.descriptors (r : Redirection) : List Int :=
  match r.target with
  | .dup source => [r.fd, source]
  | _ => [r.fd]

/-- The command of the form is one string or one closure literal, and no descriptor is over the
limit. -/
def Form.Plain (o : Options) (f : Form) : Prop :=
  (f.command.bind Word.sole?).any Primary.isCommand ∧
    ∀ r ∈ f.redirections, ∀ fd ∈ r.descriptors, fd ≤ o.maxFd

instance (o : Options) (f : Form) : Decidable (f.Plain o) := inferInstanceAs (Decidable (_ ∧ _))

/-- A piece of a script, with its survey and its forms, that only its references or the depth limit
can keep from compiling. -/
structure Settled (o : Options) (v : Survey) (fs : List Form) : Prop where
  shaped : v.flaws = []
  plain : ∀ f ∈ fs, f.Plain o

theorem settled_append {fs gs : List Form} :
    Settled o (v ++ w) (fs ++ gs) ↔ Settled o v fs ∧ Settled o w gs := by
  constructor
  · rintro ⟨hshaped, hplain⟩
    obtain ⟨hv, hw⟩ := List.append_eq_nil_iff.1 hshaped
    obtain ⟨hfs, hgs⟩ := List.forall_mem_append.1 hplain
    exact ⟨⟨hv, hfs⟩, ⟨hw, hgs⟩⟩
  · rintro ⟨hv, hw⟩
    exact ⟨List.append_eq_nil_iff.2 ⟨hv.shaped, hw.shaped⟩,
      List.forall_mem_append.2 ⟨hv.plain, hw.plain⟩⟩

theorem settled_node {fs : List Form} : Settled o v.node fs ↔ Settled o v fs :=
  ⟨fun h => ⟨h.shaped, h.plain⟩, fun h => ⟨h.shaped, h.plain⟩⟩

theorem settled_under {fs : List Form} {params : List Name} :
    Settled o (v.under params) fs ↔ Settled o v fs :=
  ⟨fun h => ⟨h.shaped, h.plain⟩, fun h => ⟨h.shaped, h.plain⟩⟩

/-! ### References that are not bound -/

/-- The root frame binds the reference, or a closure literal around it does. -/
def Reference.Bound (root : Frame) (r : Reference) : Prop := r.name ∈ root ∨ r.name ∈ r.params

instance (root : Frame) (r : Reference) : Decidable (r.Bound root) := inferInstanceAs (Decidable (_ ∨ _))

/-- Neither the frames nor a closure literal around the reference bind it. -/
def Reference.unknown (scopes : ScopeStack) (r : Reference) : Bool :=
  (scopes.type? r.name).isNone && !r.params.contains r.name

/-- The first reference that is not bound. -/
def Survey.unknown? (scopes : ScopeStack) (v : Survey) : Option Reference :=
  v.references.find? (·.unknown scopes)

theorem unknown?_append (scopes : ScopeStack) (v w : Survey) :
    (v ++ w).unknown? scopes = (v.unknown? scopes).or (w.unknown? scopes) := List.find?_append

/-- In the code of a closure its parameters are bound, and what was bound around it. -/
theorem type?_entered (s : CompileState) (params : List Name) (n : Name) :
    ((s.entered params).scopes.type? n).isNone = ((s.scopes.type? n).isNone && !params.contains n) := by
  have hinner : (s.entered params).scopes.innermost[n]?.isSome ↔ n ∈ params := by
    rw [← Std.ExtTreeMap.mem_iff_isSome_getElem?]
    unfold CompileState.entered
    rw [mem_innermost_foldl_bind]
    simp [ScopeStack.push]
  have houter : (s.entered params).scopes.outerType? n = s.scopes.type? n := by
    unfold ScopeStack.outerType? ScopeStack.type?
    rw [CompileState.outer_entered]
  rw [ScopeStack.type?_eq, houter]
  by_cases hn : n ∈ params
  · obtain ⟨t, ht⟩ := Option.isSome_iff_exists.1 (hinner.2 hn)
    simp [ht, hn]
  · have hnone : (s.entered params).scopes.innermost[n]? = none := by
      rw [← Option.not_isSome_iff_eq_none, hinner]
      exact hn
    simp [hnone, hn]

/-- A reference in the code of a closure, seen from inside and from outside. -/
theorem unknown_under (s : CompileState) (params : List Name) (r : Reference) :
    (r.under params).unknown s.scopes = r.unknown (s.entered params).scopes := by
  unfold Reference.unknown
  rw [type?_entered]
  simp [Reference.under, Bool.and_assoc]

theorem unknown?_under (s : CompileState) (params : List Name) (v : Survey) :
    (v.under params).unknown? s.scopes =
      (v.unknown? (s.entered params).scopes).map (·.under params) := by
  unfold Survey.unknown? Survey.under
  rw [List.find?_map]
  congr 2
  funext r
  exact unknown_under s params r

/-! ### Steps that fail for a reference only -/

/-- As long as the nodes fit under the depth limit, the step succeeds if every reference is bound and
then leaves frames and depth; otherwise it is rejected for the first that is not. -/
structure Resolves (o : Options) (v : Survey) (x : CompileM α) : Prop where
  accepts : ∀ {s : CompileState}, (s.depth + v.nodes : Int) ≤ o.maxDepth →
    v.unknown? s.scopes = none → ∃ a s', x.Gives s a s' ∧ s'.scopes = s.scopes ∧ s'.depth = s.depth
  blames : ∀ {s : CompileState} {r : Reference}, (s.depth + v.nodes : Int) ≤ o.maxDepth →
    v.unknown? s.scopes = some r →
    ∃ s', x.outcome s = (.error (.rejected r.pos (.undefinedVariable r.name)), s')

namespace Resolves

/-- A step that always succeeds has no references. -/
theorem silent {x : CompileM α}
    (h : ∀ s, ∃ a s', x.Gives s a s' ∧ s'.scopes = s.scopes ∧ s'.depth = s.depth) :
    Resolves o {} x where
  accepts _ _ := h _
  blames _ hr := by cases hr

theorem pure (a : α) : Resolves o {} (pure a : CompileM α) :=
  silent fun s => ⟨a, s, rfl, rfl, rfl⟩

/-- More nodes do not matter, as long as the references are the same. -/
theorem mono {x : CompileM α} (hx : Resolves o v x) (hnodes : v.nodes ≤ w.nodes)
    (hreferences : v.references = w.references) : Resolves o w x := by
  have hunknown (scopes : ScopeStack) : v.unknown? scopes = w.unknown? scopes := by
    unfold Survey.unknown?
    rw [hreferences]
  refine ⟨fun hs h => hx.accepts (by omega) ?_, fun hs h => hx.blames (by omega) ?_⟩
  · rw [hunknown, h]
  · rw [hunknown, h]

/-- In sequence, the references of the first step come first. -/
theorem bind {x : CompileM α} {f : α → CompileM β} (hx : Resolves o v x)
    (hf : ∀ a, x.CanGive a → Resolves o w (f a)) : Resolves o (v ++ w) (x >>= f) where
  accepts := by
    intro s hs h
    have hnodes : (v ++ w).nodes = v.nodes + w.nodes := rfl
    rw [unknown?_append, Option.or_eq_none_iff] at h
    obtain ⟨a, t, ha, hscopes, hdepth⟩ := hx.accepts (by omega) h.1
    rw [← hscopes] at h
    obtain ⟨b, s', hb, hscopes', hdepth'⟩ := (hf a ⟨s, t, ha⟩).accepts (by omega) h.2
    exact ⟨b, s', CompileM.gives_bind.2 ⟨a, t, ha, hb⟩, hscopes'.trans hscopes, hdepth'.trans hdepth⟩
  blames := by
    intro s r hs h
    have hnodes : (v ++ w).nodes = v.nodes + w.nodes := rfl
    rw [unknown?_append, Option.or_eq_some_iff] at h
    rw [CompileM.outcome_bind]
    rcases h with hr | ⟨hnone, hr⟩
    · obtain ⟨s', hs'⟩ := hx.blames (by omega) hr
      exact ⟨s', by rw [hs']⟩
    · obtain ⟨a, t, ha, hscopes, hdepth⟩ := hx.accepts (by omega) hnone
      rw [← hscopes] at hr
      obtain ⟨s', hs'⟩ := (hf a ⟨s, t, ha⟩).blames (by omega) hr
      rw [show x.outcome s = (.ok a, t) from ha]
      exact ⟨s', hs'⟩

theorem after {x : CompileM α} {f : α → CompileM β} (hx : Resolves o {} x)
    (hf : ∀ a, x.CanGive a → Resolves o v (f a)) : Resolves o v (x >>= f) :=
  (hx.bind hf).mono (Nat.le_of_eq (Nat.zero_add _)) rfl

theorem followed {x : CompileM α} {f : α → CompileM β} (hx : Resolves o v x)
    (hf : ∀ a, x.CanGive a → Resolves o {} (f a)) : Resolves o v (x >>= f) :=
  (hx.bind hf).mono (Nat.le_refl _) (List.append_nil _)

theorem map {x : CompileM α} (hx : Resolves o v x) (f : α → β) :
    Resolves o v (x >>= fun a => Pure.pure (f a)) := hx.followed fun a _ => pure (f a)

theorem count (f : Stats → Stats) : Resolves o {} (CompileM.count f) :=
  silent fun _ => ⟨(), _, CompileM.gives_count.2 rfl, rfl, rfl⟩

/-- A node under the limit is compiled one level deeper. -/
theorem nested {x : CompileM α} (pos : Pos) (hx : Resolves o v x) :
    Resolves o v.node (CompileM.nested o pos x) where
  accepts := by
    intro s hs h
    have hnodes : v.node.nodes = v.nodes + 1 := rfl
    have hdeeper : s.deeper.depth = s.depth + 1 := rfl
    have hlimit : o.exceeds (s.depth + 1) = false := by
      simp only [Options.exceeds, decide_eq_false_iff_not]
      omega
    obtain ⟨a, t, ha, hscopes, hdepth⟩ := hx.accepts (s := s.deeper) (by omega) h
    refine ⟨a, _, CompileM.gives_nested.2 ⟨hlimit, t, ha, rfl⟩, hscopes, ?_⟩
    show t.depth - 1 = s.depth
    omega
  blames := by
    intro s r hs h
    have hnodes : v.node.nodes = v.nodes + 1 := rfl
    have hdeeper : s.deeper.depth = s.depth + 1 := rfl
    have hlimit : ¬ o.exceeds (s.depth + 1) = true := by
      simp only [Options.exceeds, decide_eq_true_eq]
      omega
    obtain ⟨t, ht⟩ := hx.blames (s := s.deeper) (by omega) h
    rw [CompileM.outcome_nested, if_neg hlimit, ht]
    exact ⟨_, rfl⟩

/-- The code of a closure, from the frame of its parameters to its end. -/
theorem enclosed {body : CompileM (List (ValuesOp F))} (pos : Pos) (params : List Name)
    (hbody : Resolves o v body) :
    Resolves o (v.under params) (do
      let outer ← CompileM.enterClosure params
      let pipelines ← body
      let captures ← CompileM.leaveClosure outer
      return (⟨.closureOf params pipelines captures pos, captures⟩ : CompiledClosure F)) where
  accepts := by
    intro s hs h
    rw [unknown?_under, Option.map_eq_none_iff] at h
    obtain ⟨pipelines, t, ht, hscopes, hdepth⟩ := hbody.accepts (s := s.entered params) hs h
    have hpop : t.scopes.pop? = some s.scopes := by
      refine ScopeStack.pop?_of_outer ?_
      rw [hscopes, CompileState.outer_entered]
    have hleave : (CompileM.leaveClosure s.captures).Gives t t.captures (t.left s.scopes s.captures) := by
      rw [CompileM.Gives, CompileM.outcome_leaveClosure, hpop]
    refine ⟨⟨.closureOf params pipelines t.captures pos, t.captures⟩, t.left s.scopes s.captures, ?_,
      rfl, hdepth⟩
    refine CompileM.gives_bind.2 ⟨_, _, CompileM.outcome_enterClosure params s, ?_⟩
    refine CompileM.gives_bind.2 ⟨pipelines, t, ht, ?_⟩
    exact CompileM.gives_bind.2 ⟨_, _, hleave, CompileM.gives_pure.2 ⟨rfl, rfl⟩⟩
  blames := by
    intro s r hs h
    rw [unknown?_under, Option.map_eq_some_iff] at h
    obtain ⟨r, hr, rfl⟩ := h
    obtain ⟨t, ht⟩ := hbody.blames (s := s.entered params) hs hr
    rw [CompileM.outcome_bind, CompileM.outcome_enterClosure]
    simp only [CompileM.outcome_bind, ht]
    exact ⟨t, rfl⟩

theorem closure {body : CompileM (List (ValuesOp F))} (pos : Pos) (params : List Name)
    (hbody : Resolves o v body) :
    Resolves o (v.node.under params) (closureAround o pos params body) :=
  (hbody.enclosed pos params).nested pos

theorem forwarding {closure : CompileM (CompiledClosure F)} (h : Resolves o v closure) :
    Resolves o v (forwarding closure) := by
  have hforward (captures : CaptureSet) : Resolves o {} (CompileM.forwardCaptures captures) :=
    silent fun _ => ⟨(), _, CompileM.gives_forwardCaptures.2 rfl, rfl, rfl⟩
  exact h.followed fun c _ => (hforward c.captures).map fun _ => c.op

theorem mustResolve (n : Name) (pos : Pos) :
    Resolves o { references := [⟨n, pos, []⟩] } (CompileM.mustResolve n pos) where
  accepts := by
    intro s _ h
    have hknown : (s.scopes.type? n).isSome := by
      simpa [Survey.unknown?, Reference.unknown, Option.isSome_iff_ne_none] using h
    obtain ⟨t, ht⟩ := Option.isSome_iff_exists.1 hknown
    refine ⟨t, _, CompileM.gives_mustResolve.2 (CompileM.gives_resolve.2 ⟨?_, rfl⟩), rfl, rfl⟩
    rw [ScopeStack.resolve_fst, ht]
  blames := by
    intro s r _ h
    obtain ⟨hunknown, rfl⟩ : s.scopes.type? n = none ∧ ⟨n, pos, []⟩ = r := by
      simpa [Survey.unknown?, Reference.unknown] using h
    have hnone : (s.scopes.resolve n s.captures).1 = none := by
      rw [ScopeStack.resolve_fst, hunknown]
    unfold CompileM.mustResolve
    rw [CompileM.outcome_bind, CompileM.outcome_resolve, hnone]
    exact ⟨_, rfl⟩

theorem resolveCommand (registry : Registry F) (n : Name) :
    Resolves o {} (resolveCommand registry n) :=
  silent fun _ => ⟨_, _, gives_resolveCommand.2 ⟨rfl, rfl⟩, rfl, rfl⟩

end Resolves

/-! ### Trees -/

section

variable {env : Env F}

theorem checkDescriptor_silent {fd : Int} (h : fd ≤ o.maxFd) (pos : Pos) :
    Resolves o {} (checkDescriptor o fd pos) := by
  unfold checkDescriptor
  rw [if_neg (Int.not_lt.2 h)]
  exact .pure ()

theorem checkRedirections_silent : ∀ rs, (surveyRedirections rs).flaws = [] →
    (∀ r ∈ rs, ∀ fd ∈ r.descriptors, fd ≤ o.maxFd) → Resolves o {} (checkRedirections o rs)
  | [], _, _ => .pure ()
  | ⟨pos, fd, target⟩ :: rs, h, hlimit => by
    obtain ⟨hr, hrs⟩ := List.append_eq_nil_iff.1 h
    obtain ⟨hfd, -⟩ := List.append_eq_nil_iff.1 hr
    have hpositive : ¬ fd < 0 := by
      intro hneg
      simp [surveyDescriptor, hneg, Survey.flaw] at hfd
    have hle : fd ≤ o.maxFd := by
      refine hlimit _ List.mem_cons_self fd ?_
      cases target <;> simp [Redirection.descriptors]
    unfold checkRedirections
    simp only [hpositive, if_false]
    exact (checkDescriptor_silent hle pos).after fun _ _ =>
      checkRedirections_silent rs hrs fun r hr => hlimit r (List.mem_cons_of_mem _ hr)

/-- The references of a redirection are those of its file name. -/
theorem references_redirection (pos : Pos) (fd : Int) (target : RedirectTarget) :
    (surveyTarget target).references = (surveyRedirection ⟨pos, fd, target⟩).references := by
  have hfd : (surveyDescriptor fd).references = [] := by
    unfold surveyDescriptor
    split <;> rfl
  show _ = (surveyDescriptor fd).references ++ (surveyTarget target).references
  rw [hfd, List.nil_append]

theorem commandHead_resolves {head : Primary} (hhead : head.isCommand) {x : CompileM (ValuesOp F)}
    (hx : Resolves o v x) (pos : Pos) : Resolves o v (commandHead env pos head x) := by
  cases head with
  | string _ text =>
    exact hx.followed fun op _ => (Resolves.resolveCommand env.registry text).map _
  | closure _ _ => exact hx.map _
  | _ => cases hhead

theorem applySigil_silent (hspecial : ∀ n, env.registry.findSpecial n = none) (pos : Pos)
    (sigil : Option UInt8) (op : ValuesOp F) : Resolves o {} (applySigil env pos sigil op) := by
  cases sigil with
  | none => exact .pure op
  | some b =>
    refine (Resolves.count _).after fun _ _ => (Resolves.resolveCommand _ _).after fun command h => ?_
    obtain ⟨t, t', h⟩ := h
    obtain ⟨hcommand, -⟩ := gives_resolveCommand.1 h
    cases command with
    | special entry =>
      have hentry := (commandOf_eq_special hcommand.symm).2
      rw [hspecial] at hentry
      cases hentry
    | plain resolution => exact .pure _

mutual

theorem compilePipelines_resolves (hspecial : ∀ n, env.registry.findSpecial n = none) :
    ∀ ps,
    Settled env.options (surveyPipelines ps) (formsInPipelines true ps) →
    Resolves env.options (surveyPipelines ps) (compilePipelines env ps)
  | [], _ => by
    simp only [compilePipelines]
    exact .pure []
  | p :: ps, h => by
    simp only [surveyPipelines, formsInPipelines, settled_append] at h ⊢
    simp only [compilePipelines]
    exact (compilePipeline_resolves hspecial p h.1).bind fun _ _ =>
      (compilePipelines_resolves hspecial ps h.2).map _

theorem compileClosure_resolves (hspecial : ∀ n, env.registry.findSpecial n = none) :
    ∀ c,
    Settled env.options (surveyClosure c) (formsInClosure true c) →
    Resolves env.options (surveyClosure c) (compileClosure env c)
  | ⟨pos, params, ⟨_, pipelines⟩⟩, h => by
    simp only [surveyClosure, formsInClosure, settled_under, settled_node, if_true] at h ⊢
    simp only [compileClosure]
    exact (compilePipelines_resolves hspecial pipelines h).closure pos params

theorem compilePipeline_resolves (hspecial : ∀ n, env.registry.findSpecial n = none) :
    ∀ p,
    Settled env.options (surveyPipeline p) (formsInPipeline true p) →
    Resolves env.options (surveyPipeline p) (compilePipeline env p)
  | ⟨pos, forms⟩, h => by
    simp only [surveyPipeline, formsInPipeline, settled_node] at h ⊢
    simp only [compilePipeline]
    exact ((compileForms_resolves hspecial forms h).map _).nested pos

theorem compileForms_resolves (hspecial : ∀ n, env.registry.findSpecial n = none) :
    ∀ fs,
    Settled env.options (surveyForms fs) (formsInForms true fs) →
    Resolves env.options (surveyForms fs) (compileForms env fs)
  | [], _ => by
    simp only [compileForms]
    exact .pure []
  | f :: fs, h => by
    simp only [surveyForms, formsInForms, settled_append] at h ⊢
    simp only [compileForms]
    exact (compileForm_resolves hspecial f h.1).bind fun _ _ =>
      (compileForms_resolves hspecial fs h.2).map _

theorem compileForm_resolves (hspecial : ∀ n, env.registry.findSpecial n = none) :
    ∀ f, Settled env.options (surveyForm f) (formsInForm true f) →
    Resolves env.options (surveyForm f) (compileForm env f)
  | ⟨pos, command, argsPos, args, redirections⟩, h => by
    obtain ⟨hhead, hlimit⟩ := h.plain _ (mem_formsInForm true _)
    have hpieces : Settled env.options
        (surveyCommand command ++ (surveyRedirections redirections ++
          surveyWords [.missingWord, .missingArgument] args))
        (formsInWord? true command ++ (formsInRedirections true redirections ++
          formsInWords true args)) :=
      ⟨h.shaped, (List.forall_mem_append.1 h.plain).2⟩
    simp only [settled_append] at hpieces
    obtain ⟨hcommand, hredirections, hargs⟩ := hpieces
    simp only [surveyForm, compileForm]
    refine Resolves.nested pos ((Resolves.count _).after fun _ _ => ?_)
    refine (compileCommand_resolves hspecial command hhead hcommand).bind fun result hgives => ?_
    refine (checkRedirections_silent redirections hredirections.shaped hlimit).after fun _ _ => ?_
    have hports := compileRedirections_resolves hspecial redirections hlimit hredirections
    refine (hports _).bind fun ports _ => Resolves.map ?_ _
    obtain ⟨op, _ | resolution⟩ := result
    · obtain ⟨n, hn⟩ := findSpecial_of_compileCommand hgives
      rw [hspecial] at hn
      cases hn
    · exact ((compileArgs_resolves hspecial args hargs).map _).map _

theorem compileCommand_resolves (hspecial : ∀ n, env.registry.findSpecial n = none) :
    ∀ w, (w.bind Word.sole?).any Primary.isCommand →
    Settled env.options (surveyCommand w) (formsInWord? true w) →
    Resolves env.options (surveyCommand w) (compileCommand env w)
  | none, hhead, _ => by cases hhead
  | some ⟨pos, none, [⟨_, head, none⟩]⟩, hhead, h => by
    have hprimary : Settled env.options (surveyPrimary head) (formsInPrimary true head) := by
      have hshaped : ([] ++ ((surveyPrimary head).flaws ++ [])) = [] := h.shaped
      have hplain : ∀ f ∈ (formsInPrimary true head ++ []) ++ [], f.Plain env.options := h.plain
      simp only [List.append_nil, List.nil_append] at hshaped hplain
      exact ⟨hshaped, hplain⟩
    simp only [compileCommand]
    refine (commandHead_resolves hhead (compilePrimary_resolves hspecial head hprimary) pos).mono ?_ ?_
    · show (surveyPrimary head).nodes ≤ 0 + ((surveyPrimary head).nodes + 0) + 1
      omega
    · show (surveyPrimary head).references = [] ++ ((surveyPrimary head).references ++ [])
      rw [List.nil_append, List.append_nil]
  | some ⟨_, none, []⟩, hhead, _ | some ⟨_, none, ⟨_, _, some _⟩ :: _⟩, hhead, _
  | some ⟨_, none, ⟨_, _, none⟩ :: _ :: _⟩, hhead, _ | some ⟨_, some _, _⟩, hhead, _ => by
    cases hhead

theorem compileArgs_resolves (hspecial : ∀ n, env.registry.findSpecial n = none) :
    ∀ ws,
    Settled env.options (surveyWords [.missingWord, .missingArgument] ws) (formsInWords true ws) →
    Resolves env.options (surveyWords [.missingWord, .missingArgument] ws)
      ((compileArgs env ws).mapM (·.compile))
  | [], _ => by
    simp only [compileArgs]
    exact .pure []
  | none :: ws, h => by cases h.shaped
  | some w :: ws, h => by
    simp only [surveyWords, formsInWords, formsInWord?, settled_append] at h ⊢
    simp only [compileArgs, compileArg, List.mapM_cons]
    exact (compileWord_resolves hspecial w h.1).bind fun _ _ =>
      (compileArgs_resolves hspecial ws h.2).map _

theorem compileRedirections_resolves (hspecial : ∀ n, env.registry.findSpecial n = none) :
    ∀ rs,
    (∀ r ∈ rs, ∀ fd ∈ r.descriptors, fd ≤ env.options.maxFd) →
    Settled env.options (surveyRedirections rs) (formsInRedirections true rs) → ∀ ports,
    Resolves env.options (surveyRedirections rs) (compileRedirections env rs ports)
  | [], _, _, ports => by
    simp only [compileRedirections]
    exact .pure ports
  | r :: rs, hlimit, h, ports => by
    simp only [surveyRedirections, formsInRedirections, settled_append] at h ⊢
    simp only [compileRedirections]
    obtain ⟨hr, hrs⟩ := List.forall_mem_cons.1 hlimit
    exact (compileRedirection_resolves hspecial r hr h.1).bind fun _ _ =>
      compileRedirections_resolves hspecial rs hrs h.2 _

theorem compileRedirection_resolves (hspecial : ∀ n, env.registry.findSpecial n = none) :
    ∀ r, (∀ fd ∈ r.descriptors, fd ≤ env.options.maxFd) →
    Settled env.options (surveyRedirection r) (formsInRedirection true r) →
    Resolves env.options (surveyRedirection r) (compileRedirection env r)
  | ⟨pos, fd, .close⟩, _, _ => by
    simp only [compileRedirection]
    exact (Resolves.pure _).mono (Nat.zero_le _) (references_redirection pos fd .close)
  | ⟨pos, fd, .dup source⟩, hlimit, h => by
    obtain ⟨-, hsource⟩ := List.append_eq_nil_iff.1 h.shaped
    have hpositive : ¬ source < 0 := by
      intro hneg
      simp [surveyTarget, surveySource, hneg, Survey.flaw] at hsource
    have hsilent : Resolves env.options {} (checkDescriptor env.options source pos) :=
      checkDescriptor_silent (hlimit source (by simp [Redirection.descriptors])) pos
    simp only [compileRedirection, hpositive, if_false]
    have hreferences := references_redirection pos fd (.dup source)
    simp only [surveyTarget, surveySource, hpositive, if_false] at hreferences
    exact (hsilent.map _).mono (Nat.zero_le _) hreferences
  | ⟨_, _, .file _ none⟩, _, h => by cases (List.append_eq_nil_iff.1 h.shaped).2
  | ⟨pos, fd, .file flags (some filename)⟩, _, h => by
    have hfilename : Settled env.options (surveyWord filename) (formsInWord true filename) :=
      ⟨(List.append_eq_nil_iff.1 h.shaped).2, h.plain⟩
    simp only [compileRedirection]
    exact ((compileWord_resolves hspecial filename hfilename).map _).mono (Nat.le_add_left _ _)
      (references_redirection pos fd (.file flags (some filename)))
  | ⟨_, _, .unknown⟩, _, h => by cases (List.append_eq_nil_iff.1 h.shaped).2

theorem compileWords_resolves (hspecial : ∀ n, env.registry.findSpecial n = none) :
    ∀ ws,
    Settled env.options (surveyWords [.missingWord] ws) (formsInWords true ws) →
    Resolves env.options (surveyWords [.missingWord] ws) (compileWords env ws)
  | [], _ => by
    simp only [compileWords]
    exact .pure []
  | none :: _, h => by cases h.shaped
  | some w :: ws, h => by
    simp only [surveyWords, formsInWords, formsInWord?, settled_append] at h ⊢
    simp only [compileWords]
    exact (compileWord_resolves hspecial w h.1).bind fun _ _ =>
      (compileWords_resolves hspecial ws h.2).map _

theorem compileWord_resolves (hspecial : ∀ n, env.registry.findSpecial n = none) :
    ∀ w, Settled env.options (surveyWord w) (formsInWord true w) →
    Resolves env.options (surveyWord w) (compileWord env w)
  | ⟨pos, sigil, parts⟩, h => by
    obtain ⟨hshaped, hparts⟩ := List.append_eq_nil_iff.1 h.shaped
    have hne : parts.isEmpty = false := by
      cases parts with
      | nil => cases hshaped
      | cons p ps => rfl
    simp only [surveyWord, compileWord, hne, Bool.false_eq_true, if_false]
    have hops := (compileParts_resolves hspecial parts ⟨hparts, h.plain⟩).followed fun ops _ =>
      applySigil_silent hspecial pos sigil (.word ops pos)
    exact Resolves.nested pos (hops.mono (Nat.le_add_left _ _) rfl)

theorem compileParts_resolves (hspecial : ∀ n, env.registry.findSpecial n = none) :
    ∀ ps, Settled env.options (surveyParts ps) (formsInParts true ps) →
    Resolves env.options (surveyParts ps) (compileParts env ps)
  | [], _ => by
    simp only [compileParts]
    exact .pure []
  | p :: ps, h => by
    simp only [surveyParts, formsInParts, settled_append] at h ⊢
    simp only [compileParts]
    exact (compilePart_resolves hspecial p h.1).bind fun _ _ =>
      (compileParts_resolves hspecial ps h.2).map _

theorem compilePart_resolves (hspecial : ∀ n, env.registry.findSpecial n = none) :
    ∀ p, Settled env.options (surveyPart p) (formsInPart true p) →
    Resolves env.options (surveyPart p) (compilePart env p)
  | ⟨_, left, none⟩, h => by
    simp only [compilePart]
    have hleft : ∀ f ∈ formsInPrimary true left, f.Plain env.options :=
      fun f hf => h.plain f (List.mem_append_left _ hf)
    exact compilePrimary_resolves hspecial left ⟨h.shaped, hleft⟩
  | ⟨_, left, some index⟩, h => by
    simp only [surveyPart, formsInPart, formsInWord?, settled_append] at h ⊢
    simp only [compilePart]
    exact (compilePrimary_resolves hspecial left h.1).bind fun _ _ =>
      (compileWord_resolves hspecial index h.2).map _

theorem compilePairs_resolves (hspecial : ∀ n, env.registry.findSpecial n = none) :
    ∀ ps, Settled env.options (surveyPairs ps) (formsInPairs true ps) →
    Resolves env.options (surveyPairs ps) (compilePairs env ps)
  | [], _ => by
    simp only [compilePairs]
    exact .pure []
  | ⟨some key, some value⟩ :: rest, h => by
    simp only [surveyPairs, formsInPairs, formsInWord?, settled_append] at h ⊢
    simp only [compilePairs]
    refine (compileWord_resolves hspecial key h.1).bind fun _ _ => ?_
    exact (compileWord_resolves hspecial value h.2.1).bind fun _ _ =>
      (compilePairs_resolves hspecial rest h.2.2).map _
  | ⟨none, _⟩ :: _, h => by cases h.shaped
  | ⟨some _, none⟩ :: _, h => by cases h.shaped

theorem compilePrimary_resolves (hspecial : ∀ n, env.registry.findSpecial n = none) :
    ∀ p,
    Settled env.options (surveyPrimary p) (formsInPrimary true p) →
    Resolves env.options (surveyPrimary p) (compilePrimary env p)
  | .string pos text, _ => (Resolves.pure _).nested pos
  | .variable pos name, _ => by
    simp only [surveyPrimary, compilePrimary]
    refine Resolves.nested pos ((Resolves.mustResolve name pos).followed fun _ _ => ?_)
    exact (Resolves.count _).map _
  | .table pos items pairs, h => by
    simp only [surveyPrimary, formsInPrimary, settled_node, settled_append] at h ⊢
    simp only [compilePrimary]
    refine Resolves.nested pos ((compileWords_resolves hspecial items h.1).bind fun itemOps _ => ?_)
    -- there are as many keys as values, so the table is built
    simp only [ValuesOp.table?, List.length_map, if_true]
    exact (compilePairs_resolves hspecial pairs h.2).map _
  | .closure pos none, h => by cases h.shaped
  | .closure pos (some c), h => by
    simp only [surveyPrimary, formsInPrimary, settled_node] at h ⊢
    simp only [compilePrimary]
    exact (compileClosure_resolves hspecial c h).forwarding.nested pos
  | .list pos itemsPos items, h => by
    simp only [surveyPrimary, formsInPrimary, settled_node] at h ⊢
    simp only [compilePrimary]
    exact ((compileWords_resolves hspecial items h).map _).nested pos
  | .chanCapture pos none, h => by cases h.shaped
  | .chanCapture pos (some p), h => by
    simp only [surveyPrimary, formsInPrimary, settled_node] at h ⊢
    simp only [compilePrimary]
    exact ((compilePipeline_resolves hspecial p h).map _).nested pos
  | .statusCapture pos none, h => by cases h.shaped
  | .statusCapture pos (some p), h => by
    simp only [surveyPrimary, formsInPrimary, settled_node] at h ⊢
    simp only [compilePrimary]
    exact (compilePipeline_resolves hspecial p h).nested pos
  | .unknown pos, h => by cases h.shaped

end

end

/-! ### Whole scripts -/

theorem unknown_ofRoot (root : Frame) (r : Reference) :
    r.unknown (CompileState.ofRoot root).scopes = !decide (r.Bound root) := by
  have htype : (CompileState.ofRoot root).scopes.type? r.name = root[r.name]? := by
    rw [ScopeStack.type?_eq]
    exact Option.or_none
  have hmem : r.name ∈ root ↔ root[r.name]?.isSome := Std.ExtTreeMap.mem_iff_isSome_getElem?
  unfold Reference.unknown Reference.Bound
  rw [htype]
  by_cases hname : r.name ∈ root
  · have hsome := hmem.1 hname
    simp [hname]
  · simp [hname]

/-- **Closed scripts are the ones that compile.** Without special forms, a well-shaped script whose
commands are strings and closure literals, whose descriptors are within the limit, and that has no
more nodes than the depth limit, compiles if and only if the root frame or a closure around it binds
each of its references. Otherwise its author is told of the first, in the order of compiling, that
is not bound. -/
theorem compiles_iff_references_bound (c : Compiler F)
    (hspecial : ∀ n, c.registry.findSpecial n = none) (source : Source) (chunk : Chunk) (root : Frame)
    (hshape : chunk.WellShaped)
    (hplain : ∀ f ∈ formsInPipelines true chunk.pipelines, f.Plain c.options)
    (hdepth : ((surveyPipelines chunk.pipelines).nodes : Int) ≤ c.options.maxDepth) :
    ((∃ op stats, c.compile source chunk root = .ok ⟨.ok op, stats⟩) ↔
      ∀ r ∈ (surveyPipelines chunk.pipelines).references, r.Bound root) ∧
    ∀ before r after, (surveyPipelines chunk.pipelines).references = before ++ r :: after →
      (∀ q ∈ before, q.Bound root) → ¬ r.Bound root →
      ∃ stats, c.compile source chunk root =
        .ok ⟨.error ⟨source.name, source.text, r.pos, utf8 "undefined variable $" ++ r.name⟩, stats⟩ := by
  have hresolves := @compilePipelines_resolves F ⟨c.registry, c.options, source⟩ hspecial
    chunk.pipelines ⟨hshape, hplain⟩
  have hfits : ((CompileState.ofRoot root).depth + (surveyPipelines chunk.pipelines).nodes : Int) ≤
      c.options.maxDepth := by
    show ((0 : Nat) + (surveyPipelines chunk.pipelines).nodes : Int) ≤ c.options.maxDepth
    omega
  have hblames : ∀ before r after, (surveyPipelines chunk.pipelines).references = before ++ r :: after →
      (∀ q ∈ before, q.Bound root) → ¬ r.Bound root →
      ∃ stats, c.compile source chunk root =
        .ok ⟨.error ((Rejection.undefinedVariable r.name).diagnose source r.pos), stats⟩ := by
    intro before r after hsplit hbefore hr
    have hfirst : (surveyPipelines chunk.pipelines).unknown? (CompileState.ofRoot root).scopes = some r := by
      refine List.find?_eq_some_iff_append.2 ⟨?_, before, after, hsplit, fun q hq => ?_⟩
      · simp [unknown_ofRoot, hr]
      · simp [unknown_ofRoot, hbefore q hq]
    obtain ⟨s, hs⟩ := hresolves.blames hfits hfirst
    rw [compile_eq, hs]
    exact ⟨s.stats, rfl⟩
  refine ⟨⟨?_, fun h => ?_⟩, hblames⟩
  · rintro ⟨op, stats, h⟩ r hr
    by_contra hunbound
    -- some reference is not bound, so there is a first one
    have hexists : ((surveyPipelines chunk.pipelines).references.find? (¬ ·.Bound root)).isSome :=
      List.find?_isSome.2 ⟨r, hr, by simpa using hunbound⟩
    obtain ⟨q, hq⟩ := Option.isSome_iff_exists.1 hexists
    obtain ⟨hq, before, after, hsplit, hbefore⟩ := List.find?_eq_some_iff_append.1 hq
    obtain ⟨stats', h'⟩ := hblames before q after hsplit (by simpa using hbefore) (by simpa using hq)
    rw [h] at h'
    cases h'
  · have hnone : (surveyPipelines chunk.pipelines).unknown? (CompileState.ofRoot root).scopes = none := by
      refine List.find?_eq_none.2 fun r hr => ?_
      simp [unknown_ofRoot, h r hr]
    obtain ⟨ops, s, hs, -⟩ := hresolves.accepts hfits hnone
    rw [compile_eq, show CompileM.outcome _ _ = _ from hs]
    exact ⟨_, _, rfl⟩

/-- `put {|p| put $p [&$k=$v]} $a > $b`: the file name comes before the arguments. -/
def fiveReferences : Chunk :=
  ⟨0, [⟨0, [⟨0, some (wordOf (.string 0 (utf8 "put"))), 0,
    [some (wordOf (.closure 0 (some (closureOf ["p"] [formOf "put" [.variable 1 (utf8 "p"),
        .table 0 [] [⟨some (wordOf (.variable 2 (utf8 "k"))),
          some (wordOf (.variable 3 (utf8 "v")))⟩]]])))),
      some (wordOf (.variable 4 (utf8 "a")))],
    [intoFile (.variable 5 (utf8 "b"))]⟩]⟩]⟩

theorem fiveReferences_compile :
    (∃ op stats, (⟨.empty, {}⟩ : Compiler Unit).compile ⟨[], []⟩ fiveReferences
      (.ofList (["a", "b", "k", "v"].map fun n => (utf8 n, Ty.any))) =
        .ok ⟨.ok op, stats⟩) ∧
    (∃ stats, (⟨.empty, {}⟩ : Compiler Unit).compile ⟨[], []⟩ fiveReferences {(utf8 "b", .any)} =
      .ok ⟨.error ⟨[], [], 2, utf8 "undefined variable $" ++ utf8 "k"⟩, stats⟩) := by
  have hspecial : ∀ n, (Registry.empty : Registry Unit).findSpecial n = none := fun n => by
    simp [Registry.findSpecial, Registry.empty]
  have hshape : fiveReferences.WellShaped := by decide +kernel
  have hplain : ∀ f ∈ formsInPipelines true fiveReferences.pipelines, f.Plain {} := by decide +kernel
  have hdepth : ((surveyPipelines fiveReferences.pipelines).nodes : Int) ≤ ({} : Options).maxDepth := by
    decide +kernel
  have h := compiles_iff_references_bound ⟨.empty, {}⟩ hspecial ⟨[], []⟩ fiveReferences
  constructor
  · exact (h _ hshape hplain hdepth).1.2 (by decide +kernel)
  · exact (h _ hshape hplain hdepth).2 [⟨utf8 "b", 5, []⟩, ⟨utf8 "p", 1, [utf8 "p"]⟩]
      ⟨utf8 "k", 2, [utf8 "p"]⟩ [⟨utf8 "v", 3, [utf8 "p"]⟩, ⟨utf8 "a", 4, []⟩]
      (by decide +kernel) (by decide +kernel) (by decide +kernel)

end ShellOps
