/-
# Compiled ops are closed

An op knows nothing of the scopes it was compiled in, so whatever it needs has to be in it: walked in
the order of compiling, with the names of the root frame as locals, it finds every name it uses among
the locals and the captures. The order of the walk is not the order of running, and a redirection that
a later one replaces leaves no op to walk. For a script in whose file names no name is bound or taken
away neither matters, and the walk goes through (`compiled_ops_closed`).
-/
import ShellOps.Proofs.Effects
import ShellOps.Proofs.OpWalks

namespace ShellOps

variable {F : Type}

variable {caps : CaptureSet} {fs : List Form} {s t s' : CompileState}

/-! ### What compiling gives -/

/-- The walk of an op goes from the locals before it was compiled to those after, whatever else is
captured later. -/
structure Closes {α : Type} (walk : CaptureSet → α → Frame → Option Frame) (fs : List Form)
    (s : CompileState) (op : α) (s' : CompileState) : Prop where
  effect : Effect fs s s'
  locals : ∀ {caps : CaptureSet}, (∀ n ∈ s'.captures, n ∈ caps) →
    walk caps op s.scopes.innermost = some s'.scopes.innermost

/-- Ops compiled one after the other are walked one after the other. -/
theorem inTurn_of_chain {α : Type} {walk : CaptureSet → α → Frame → Option Frame} {ops : List α}
    (h : Chain (Closes walk fs) s ops s') (hcaps : ∀ n ∈ s'.captures, n ∈ caps) :
    inTurn (ops.map (walk caps)) s.scopes.innermost = some s'.scopes.innermost := by
  induction h with
  | nil => rfl
  | cons hop hrest ih =>
    have heffect := effect_of_chain Closes.effect hrest
    rw [List.map_cons, inTurn, hop.locals fun n hn => hcaps n (heffect.captures n hn)]
    exact ih hcaps

theorem inTurn_localsSteps {ops : List (ValuesOp F)} (h : Chain (Closes ValuesOp.localsAfter fs) s ops s')
    (hcaps : ∀ n ∈ s'.captures, n ∈ caps) :
    inTurn (localsSteps caps ops) s.scopes.innermost = some s'.scopes.innermost := by
  rw [localsSteps_eq_map]
  exact inTurn_of_chain h hcaps

theorem inTurn_alternate {pairs : List (ValuesOp F × ValuesOp F)}
    (h : Chain (InPairs (Closes ValuesOp.localsAfter fs)) s pairs s')
    (hcaps : ∀ n ∈ s'.captures, n ∈ caps) :
    inTurn (alternate (localsSteps caps (pairs.map (·.1))) (localsSteps caps (pairs.map (·.2))))
      s.scopes.innermost = some s'.scopes.innermost := by
  induction h with
  | nil => simp [localsSteps, alternate, inTurn]
  | cons hpair hrest ih =>
    obtain ⟨u, hkey, hvalue⟩ := hpair
    have heffect : Effect fs _ _ := effect_of_pairs Closes.effect hrest
    have hvcaps := fun n hn => hcaps n (heffect.captures n hn)
    simp only [List.map_cons, localsSteps, alternate, inTurn]
    rw [hkey.locals fun n hn => hvcaps n (hvalue.effect.captures n hn), Option.bind_some,
      hvalue.locals hvcaps]
    exact ih hcaps

/-! ### Names that are visible -/

theorem mem_captures_looked {n : Name} (h : (s.scopes.type? n).isSome)
    (hlocal : n ∉ s.scopes.innermost) : n ∈ (s.looked n).captures := by
  have hnone : s.scopes.innermost[n]? = none := Std.ExtTreeMap.getElem?_eq_none hlocal
  rw [ScopeStack.type?_eq, hnone, Option.none_or] at h
  obtain ⟨t, ht⟩ := Option.isSome_iff_exists.1 h
  rw [CompileState.looked, ScopeStack.resolve_of_outer s.captures hnone ht]
  simp

/-- A name that is looked up and found is visible from then on. -/
theorem visible_of_looked {n : Name} (h : (s.scopes.type? n).isSome)
    (hcaps : ∀ m ∈ (s.looked n).captures, m ∈ caps) : Visible caps s.scopes.innermost n := by
  by_cases hlocal : n ∈ s.scopes.innermost
  · exact .inl hlocal
  · exact .inr (hcaps n (mem_captures_looked h hlocal))

theorem visible_of_lookedAll {names : List Name} (h : ∀ n ∈ names, (s.scopes.type? n).isSome)
    (hcaps : ∀ m ∈ (names.foldl (·.looked ·) s).captures, m ∈ caps) :
    ∀ n ∈ names, Visible caps s.scopes.innermost n := by
  induction names generalizing s with
  | nil => exact nofun
  | cons n names ih =>
    have hrest : ∀ m ∈ (s.looked n).captures, m ∈ caps := fun m hm =>
      hcaps m ((Effect.lookedAll names (s.looked n) : Effect [] _ _).captures m hm)
    have hnames : ∀ m ∈ names, ((s.looked n).scopes.type? m).isSome := fun m hm =>
      h m (List.mem_cons_of_mem n hm)
    have hn : Visible caps s.scopes.innermost n := visible_of_looked (h n List.mem_cons_self) hrest
    exact List.forall_mem_cons.2 ⟨hn, ih (s := s.looked n) hnames hcaps⟩

/-- A name that a closure captures is visible where the closure stands. -/
theorem visible_of_captured (hcaps : ∀ m ∈ (s.passedOn t).captures, m ∈ caps) :
    ∀ n ∈ t.captures.keys, Visible caps s.scopes.innermost n := by
  intro n hn
  rw [Std.ExtTreeMap.mem_keys] at hn
  by_cases hlocal : n ∈ s.scopes.innermost
  · exact .inl hlocal
  · refine .inr (hcaps n ?_)
    rw [Std.ExtTreeMap.mem_iff_isSome_getElem?] at hn ⊢
    rw [CompileState.passedOn, CaptureSet.getElem?_forward]
    have hno : s.scopes.hasLocal n = false := by
      rw [ScopeStack.hasLocal, ← Bool.not_eq_true]
      exact hlocal
    obtain ⟨u, hu⟩ := Option.isSome_iff_exists.1 hn
    rw [hno, hu]
    cases s.captures[n]? <;> rfl

/-! ### Frames -/

theorem innermost_foldl_bind (names : List Name) : ∀ s : ScopeStack,
    (names.foldl (·.bind · .any) s).innermost = withNames s.innermost names := by
  induction names with
  | nil => exact fun _ => rfl
  | cons n names ih => exact fun s => ih (s.bind n .any)

theorem innermost_entered (s : CompileState) (params : List Name) :
    (s.entered params).scopes.innermost = withNames ∅ params :=
  innermost_foldl_bind params s.scopes.push

/-! ### Ports -/

/-- Where no file name rebinds a name, each port leaves the locals as they are. -/
theorem localsAfter_of_mem_ports {ops : List (PortOp F)} (hfs : ∀ f ∈ fs, ¬ f.Rebinds)
    (h : Chain (Closes PortOp.localsAfter fs) s ops s') (hcaps : ∀ n ∈ s'.captures, n ∈ caps) :
    ∀ op ∈ ops, op.localsAfter caps s.scopes.innermost = some s.scopes.innermost := by
  induction h with
  | nil => exact nofun
  | cons hop hrest ih =>
    have heffect := effect_of_chain Closes.effect hrest
    have hkeeps := hop.effect.keeps hfs
    refine List.forall_mem_cons.2 ⟨?_, ?_⟩
    · rw [hop.locals fun n hn => hcaps n (heffect.captures n hn), hkeeps]
    · rw [← hkeeps]
      exact ih hcaps

theorem inTurn_portTable {rs : List Redirection} {ops : List (PortOp F)} (hfs : ∀ f ∈ fs, ¬ f.Rebinds)
    (h : Chain (Closes PortOp.localsAfter fs) s ops s') (hcaps : ∀ n ∈ s'.captures, n ∈ caps) :
    inTurn (portSteps caps (portTable rs ops)) s.scopes.innermost = some s.scopes.innermost := by
  refine inTurn_of_stays fun step hstep => ?_
  rw [portSteps_eq_map] at hstep
  obtain ⟨slot, hslot, rfl⟩ := List.mem_map.1 hstep
  rcases mem_portTable hslot with rfl | ⟨op, hop, rfl⟩
  · simp [portStep]
  · simp only [portStep]
    exact localsAfter_of_mem_ports hfs h hcaps op hop

/-! ### Forms -/

/-- A function of the script that a command names is visible once its name was looked up. -/
theorem visible_callee {r : Registry F} {text : Bytes} {pos : Pos} {resolution : Resolution F}
    (h : commandOf r text (t.scopes.type? (functionName text)) = .plain resolution)
    (hcaps : ∀ n ∈ (t.looked (functionName text)).captures, n ∈ caps) :
    ∀ n ∈ callee? (.string text pos : ValuesOp F) resolution.kind,
      Visible caps t.scopes.innermost n := by
  intro n hn
  obtain ⟨-, -, hclosure⟩ := plain_of_commandOf h
  cases hkind : resolution.kind with
  | userFunction =>
    obtain rfl : functionName text = n := by simpa [callee?, hkind] using hn
    exact visible_of_looked (by rw [hclosure hkind]; rfl) hcaps
  | _ => simp [callee?, hkind] at hn

/-- The command word of a form and its ports leave the locals as they are walked, and a function of
the script that the form calls is visible then. -/
theorem localsAfter_head {env : Env F} {f : Form} {op : ValuesOp F} {c : Command F}
    {portOps : List (PortOp F)} (hgood : f.QuietFilenames)
    (h : FormHead env (Closes ValuesOp.localsAfter) (Closes PortOp.localsAfter) f fs s op c portOps t)
    (hcaps : ∀ n ∈ t.captures, n ∈ caps) :
    (op.localsAfter caps s.scopes.innermost).bind
        (inTurn (portSteps caps (portTable f.redirections portOps))) = some t.scopes.innermost ∧
      ∀ resolution, c = .plain resolution → resolution.op = .missing ∧
        ∀ n ∈ callee? op resolution.kind, Visible caps t.scopes.innermost n := by
  obtain ⟨t₀, u, hop, hfound, hports⟩ := h.parts
  have heffect : Effect _ u t := effect_of_chain Closes.effect hports
  have hkeeps : t.scopes.innermost = u.scopes.innermost := heffect.keeps hgood
  have hucaps : ∀ n ∈ u.captures, n ∈ caps := fun n hn => hcaps n (heffect.captures n hn)
  have hfirst : Effect fs t₀ u := .command hfound
  have hcommand : op.localsAfter caps s.scopes.innermost = some u.scopes.innermost := by
    rw [hfound.scopes]
    exact hop.locals fun n hn => hucaps n (hfirst.captures n hn)
  refine ⟨?_, fun resolution hc => ?_⟩
  · rw [hcommand, Option.bind_some, inTurn_portTable hgood hports hcaps, hkeeps]
  · rw [hkeeps]
    cases hfound with
    | text text pos t₀ => exact ⟨(plain_of_commandOf hc).1, visible_callee (t := t₀) hc hucaps⟩
    | closure params captures chunk pos =>
      obtain rfl := Command.plain.inj hc
      exact ⟨rfl, nofun⟩

/-- The walk of a form, from the walks of its parts. -/
theorem localsAfter_form {op args : ValuesOp F} {ports : List (Option (PortOp F))}
    {resolution : Resolution F} {unset : PortPolicy} {pos : Pos} {locals after : Frame} (before : Frame)
    (hhead : (op.localsAfter caps locals).bind (inTurn (portSteps caps ports)) = some before)
    (hrest : (args.localsAfter caps before).bind (resolution.op.localsAfter caps) = some after)
    (hcallee : ∀ n ∈ callee? op resolution.kind, Visible caps before n ∨ Visible caps after n) :
    (FormOp.mk op args ports resolution unset pos).localsAfter caps locals = some after := by
  obtain ⟨kind, function, special, inner⟩ := resolution
  rw [FormOp.localsAfter, hhead, Option.bind_some]
  simp only [Resolution.localsAfter]
  rw [hrest, Option.bind_some, if_pos hcallee]

theorem localsAfter_missing (locals : Frame) :
    (ValuesOp.missing : ValuesOp F).localsAfter caps locals = some locals := by
  simp [ValuesOp.localsAfter]

section

variable {env : Env F} {f : Form} {op : ValuesOp F}

theorem closes_sigil {resolution : Resolution F} (b : UInt8) (pos : Pos)
    (h : Closes ValuesOp.localsAfter fs s op t)
    (hcommand : commandOf env.registry [b] (t.scopes.type? (functionName [b])) = .plain resolution)
    (count : Stats → Stats) : Closes ValuesOp.localsAfter fs s
      (ValuesOp.pipeline [some (sigilStage env.options b op resolution pos)] pos).capture
      ((t.counted count).looked (functionName [b])) := by
  have hlooked : Effect fs t ((t.counted count).looked (functionName [b])) :=
    (Effect.counted t count).trans (.looked _ _)
  refine ⟨h.effect.trans hlooked, fun {caps} hcaps => ?_⟩
  have hargs := h.locals fun n hn => hcaps n (hlooked.captures n hn)
  have hstage : (sigilStage env.options b op resolution pos).localsAfter caps s.scopes.innermost =
      some t.scopes.innermost := by
    refine localsAfter_form s.scopes.innermost ?_ ?_ fun n hn => ?_
    · simp [ValuesOp.localsAfter, portSteps, inTurn]
    · rw [hargs, (plain_of_commandOf hcommand).1, Option.bind_some, localsAfter_missing]
    · exact .inr (visible_callee (t := t.counted count) hcommand hcaps n hn)
  simp only [ValuesOp.capture, ValuesOp.localsAfter, stageSteps, stageStep, inTurn, hstage]
  rfl

theorem closes_plainForm {resolution : Resolution F} {portOps : List (PortOp F)}
    {args : List (ValuesOp F)} (hgood : f.QuietFilenames) (hfs : formsInForm false f ⊆ fs)
    (h : FormHead env (Closes ValuesOp.localsAfter) (Closes PortOp.localsAfter) f fs s op
      (.plain resolution) portOps t)
    (hargs : Chain (Closes ValuesOp.localsAfter (formsInWords false f.args)) t args s') :
    Closes FormOp.localsAfter fs s ⟨op, .spaced args f.argsPos, portTable f.redirections portOps,
      resolution, env.options.unsetPorts, f.pos⟩ s' := by
  have heffect : Effect fs t s' := .arguments Closes.effect hfs hargs
  refine ⟨(Effect.head Closes.effect Closes.effect hfs h).trans heffect, fun {caps} hcaps => ?_⟩
  obtain ⟨hhead, hplain⟩ := localsAfter_head hgood h fun n hn => hcaps n (heffect.captures n hn)
  obtain ⟨hmissing, hcallee⟩ := hplain resolution rfl
  refine localsAfter_form _ hhead ?_ fun n hn => .inl (hcallee n hn)
  rw [ValuesOp.localsAfter, inTurn_localsSteps hargs hcaps, hmissing, Option.bind_some,
    localsAfter_missing]

theorem closes_specialForm {entry : Builtin (SpecialForm F)} {portOps : List (PortOp F)}
    {special : ValuesOp F} (hgood : f.QuietFilenames) (hfs : formsInForm false f ⊆ fs)
    (h : FormHead env (Closes ValuesOp.localsAfter) (Closes PortOp.localsAfter) f fs s op
      (.special entry) portOps t)
    (hspecial : Closes ValuesOp.localsAfter fs t special s') :
    Closes FormOp.localsAfter fs s ⟨op, .missing, portTable f.redirections portOps,
      .ofSpecial { id := entry.id, name := entry.name, body := () } special,
      env.options.unsetPorts, f.pos⟩ s' := by
  refine ⟨(Effect.head Closes.effect Closes.effect hfs h).trans hspecial.effect, fun {caps} hcaps => ?_⟩
  obtain ⟨hhead, -⟩ := localsAfter_head hgood h fun n hn => hcaps n (hspecial.effect.captures n hn)
  refine localsAfter_form _ hhead ?_ nofun
  rw [localsAfter_missing, Option.bind_some]
  exact hspecial.locals hcaps

end

/-- **Ops are built closed.** The walk of an op goes from the locals before it was compiled to those
after, if in no form a file name rebinds a name. -/
theorem closes (env : Env F) : Builds env (Closes ValuesOp.localsAfter) (Closes PortOp.localsAfter)
    true Form.QuietFilenames (Closes FormOp.localsAfter) where
  nested h := ⟨h.effect.nested, h.locals⟩
  nestedForm h := ⟨h.effect.nested, h.locals⟩
  string text pos := ⟨.refl _ _, fun _ => by simp [ValuesOp.localsAfter]⟩
  reference pos h := by
    refine ⟨(Effect.looked _ _).trans (.counted _ _), fun hcaps => ?_⟩
    rw [ValuesOp.localsAfter, if_pos (visible_of_looked (by rw [h]; rfl) hcaps)]
    rfl
  word pos _ h := by
    refine ⟨effect_of_chain Closes.effect h, fun hcaps => ?_⟩
    rw [localsAfter_word, inTurn_localsSteps h hcaps]
  sigil b pos h hcommand := closes_sigil b pos h hcommand _
  indexed pos h h' := by
    refine ⟨h.effect.trans h'.effect, fun hcaps => ?_⟩
    rw [localsAfter_indexed, h.locals fun n hn => hcaps n (h'.effect.captures n hn), Option.bind_some,
      h'.locals hcaps]
  spaced pos h := by
    refine ⟨effect_of_chain Closes.effect h, fun hcaps => ?_⟩
    rw [ValuesOp.localsAfter, inTurn_localsSteps h hcaps]
  table pos h h' := by
    have heffect : Effect _ _ _ := effect_of_pairs Closes.effect h'
    refine ⟨(effect_of_chain Closes.effect h).trans heffect, fun hcaps => ?_⟩
    rw [ValuesOp.localsAfter, ValuesOp.localsAfter,
      inTurn_localsSteps h fun n hn => hcaps n (heffect.captures n hn), Option.bind_some,
      inTurn_alternate h' hcaps]
  closure params pos hbody _ := by
    refine ⟨.passedOn _ _, fun hcaps => ?_⟩
    have hwalk := inTurn_localsSteps (hbody rfl) (fun n hn => hn)
    rw [innermost_entered] at hwalk
    rw [ValuesOp.closureOf, ValuesOp.localsAfter, ValuesOp.localsAfter, hwalk,
      if_pos ⟨visible_of_captured hcaps, rfl⟩]
    rfl
  pipeline pos h := by
    refine ⟨effect_of_chain Closes.effect h, fun {caps} hcaps => ?_⟩
    rw [ValuesOp.localsAfter, stageSteps_eq_map, List.map_map]
    refine Eq.trans ?_ (inTurn_of_chain h hcaps)
    congr 1
  capture h := ⟨h.effect, fun hcaps => by
    rw [ValuesOp.capture, ValuesOp.localsAfter, h.locals hcaps]⟩
  plainForm := closes_plainForm
  specialForm := closes_specialForm
  var _ _ hf hfs _ _ h := by
    refine ⟨(Effect.arguments Closes.effect hfs h).trans (.bound hf hfs _), fun hcaps => ?_⟩
    rw [ValuesOp.localsAfter, ValuesOp.localsAfter, inTurn_localsSteps h hcaps]
    simp [innermost_foldl_bind]
  declare _ hf hfs _ _ := by
    refine ⟨.bound hf hfs _, fun hcaps => ?_⟩
    rw [ValuesOp.localsAfter, localsAfter_missing]
    simp [innermost_foldl_bind]
  set _ _ _ _ hfs _ hnames h := by
    refine ⟨(Effect.lookedAll _ _).trans (.arguments Closes.effect hfs h), fun hcaps => ?_⟩
    have hvisible := visible_of_lookedAll hnames fun n hn =>
      hcaps n ((effect_of_chain Closes.effect h).captures n hn)
    have hvalues := inTurn_localsSteps h hcaps
    rw [CompileState.scopes_lookedAll] at hvalues
    rw [ValuesOp.localsAfter, if_pos hvisible, ValuesOp.localsAfter, hvalues]
  del _ hf hfs _ hframe := ⟨.deleted hf hfs _, fun _ => by rw [ValuesOp.localsAfter, hframe]⟩
  fn _ hf _ hfs h := by
    have hargs := h.effect.mono (List.Subset.trans (args_subset_formsInForm false _) hfs)
    refine ⟨(Effect.boundFunction hf hfs _ _).trans hargs, fun hcaps => ?_⟩
    rw [ValuesOp.localsAfter]
    exact h.locals hcaps
  closePort _ := ⟨.refl _ _, fun _ => by simp [PortOp.localsAfter]⟩
  dupPort _ _ _ := ⟨.refl _ _, fun _ => by simp [PortOp.localsAfter]⟩
  filePort _ _ h := ⟨h.effect, fun hcaps => by rw [PortOp.localsAfter, h.locals hcaps]⟩

/-- **Compiled ops are closed.** If no file name of a redirection rebinds a name (as when it has no
captures outside closure literals), then every name that the op of a script uses is there when the
walk comes to it: a name of the root frame, or one bound before it; and in the code of a closure, one
of its parameters, one of the names it captures, or one bound there before. -/
theorem compiled_ops_closed (c : Compiler F) (hcore : c.registry.CoreOnly) (source : Source)
    (chunk : Chunk) (root : Frame)
    (hquiet : ∀ f ∈ formsInPipelines true chunk.pipelines, f.QuietFilenames) {op : ValuesOp F}
    {stats : Stats} (h : c.compile source chunk root = .ok ⟨.ok op, stats⟩) :
    (op.localsAfter ∅ root).isSome := by
  obtain ⟨ops, s', hops, rfl, -⟩ := gives_of_compile h
  have hchain := compilePipelines_builds (closes _) hcore chunk.pipelines
    ⟨hquiet, List.Subset.refl _⟩ hops
  have hcaptures := captures_of_compilePipelines hcore hops
  have hwalk : inTurn (localsSteps ∅ ops) root = some s'.scopes.innermost :=
    inTurn_localsSteps hchain fun n hn => by rwa [hcaptures] at hn
  rw [ValuesOp.localsAfter, hwalk]
  rfl

/-- The script `fn f { |p| echo { f $p $x } }; var y = a; f { put $y } > $y; del y`. -/
def recursiveScript : Chunk := codeOf
  [formOf "fn" [.string 0 (utf8 "f"), .closure 0 (some (closureOf ["p"]
      [formOf "echo" [.closure 0 (some (closureOf []
        [formOf "f" [.variable 0 (utf8 "p"), .variable 0 (utf8 "x")]]))]]))],
    formOf "var" [.string 0 (utf8 "y"), .string 0 (utf8 "="), .string 0 (utf8 "a")],
    { formOf "f" [.closure 0 (some (closureOf [] [formOf "put" [.variable 0 (utf8 "y")]]))] with
      redirections := [intoFile (.variable 0 (utf8 "y"))] },
    formOf "del" [.string 0 (utf8 "y")]]

theorem compiled_ops_closed_recursive :
    (∀ f ∈ formsInPipelines true recursiveScript.pipelines, f.QuietFilenames) ∧
    ∃ op stats, (⟨(coreEnv : Env Unit).registry, {}⟩ : Compiler Unit).compile ⟨[], []⟩ recursiveScript
        {(utf8 "x", .list)} = .ok ⟨.ok op, stats⟩ ∧
      (op.localsAfter ∅ {(utf8 "x", .list)}).isSome := by
  have hquiet : ∀ f ∈ formsInPipelines true recursiveScript.pipelines, f.QuietFilenames := by
    decide +kernel
  obtain ⟨op, stats, h, -⟩ := exists_of_compile (⟨(coreEnv : Env Unit).registry, {}⟩ : Compiler Unit)
    ⟨[], []⟩ recursiveScript {(utf8 "x", .list)} (fun _ => true) (by decide +kernel)
  exact ⟨hquiet, op, stats, h, compiled_ops_closed _ coreOnly_coreEnv _ _ _ hquiet h⟩

end ShellOps
