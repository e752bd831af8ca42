/-
# Scoping is sound for running

Names are checked when a script is compiled, in the order in which it is compiled; ops run in an
order of their own. A form is compiled as command, redirections, arguments, and runs as command,
arguments, redirections; the names of `set` are looked up before its values are compiled, and after
they have run; and a redirection that a later one replaces is compiled, but does not run. So an op can
need a name where it is not there. If its walk in the order of running goes through, no run misses a
name; if it does not, no run succeeds. In a script whose forms are `Orderly` the two orders cannot be
told apart by the names in scope, and the walk goes through. Being orderly asks three things of a form,
and none of them can be dropped.

The walk of an op is followed with a set that covers the names in scope where the op was compiled. It
may hold more: what a form's arguments have bound is there when its redirections run, though they were
compiled without it.
-/
import ShellOps.Proofs.Effects
import ShellOps.Proofs.FlatMachine

namespace ShellOps

variable {w : World} {F α : Type}

/-! ### The condition -/

def Redirection.isFile : Redirection → Bool
  | ⟨_, _, .file _ _⟩ => true
  | _ => false

/-- Running the form in another order than compiling it makes no difference for the names in scope:
its file names rebind none, and if it has file names or assigns to names, then its arguments take none
away. -/
def Form.Orderly (f : Form) : Prop :=
  f.QuietFilenames ∧ (f.Is .set ∨ f.redirections.any Redirection.isFile →
    ∀ g ∈ formsInWords false f.args, ¬ g.Is .del)

instance (f : Form) : Decidable f.Orderly := inferInstanceAs (Decidable (_ ∧ (_ → ∀ _ ∈ _, _)))

/-! ### Names that cover a frame -/

/-- Every name of the innermost frame is among the names. -/
def Covers (A : Finset Name) (s : CompileState) : Prop := ∀ n ∈ s.scopes.innermost, n ∈ A

/-- A walk from the names `A` goes through and ends with names that cover the frame of `s'`; if no
`del` is among the forms, it loses none. -/
def Reaches (fs : List Form) (A : Finset Name) (s' : CompileState) (result : Option (Finset Name)) :
    Prop :=
  ∃ B, result = some B ∧ Covers B s' ∧ ((∀ f ∈ fs, ¬ f.Is .del) → A ⊆ B)

/-- The walk of an op, compiled between two states of the root frame, goes from any names that cover
the frame before to such names after. -/
structure Finds (walk : α → Finset Name → Option (Finset Name)) (fs : List Form) (s : CompileState)
    (op : α) (s' : CompileState) : Prop where
  effect : Effect fs s s'
  reaches : s.scopes.outer = [] → ∀ {A : Finset Name}, Covers A s → Reaches fs A s' (walk op A)

variable {fs gs : List Form} {s t s' : CompileState} {A B : Finset Name}

theorem Covers.mono (h : Covers A s) (hsub : A ⊆ B) : Covers B s := fun n hn => hsub (h n hn)

/-- A name that the root frame has in scope is covered. -/
theorem Covers.mem {n : Name} (h : Covers A s) (houter : s.scopes.outer = [])
    (hn : (s.scopes.type? n).isSome) : n ∈ A := by
  rw [ScopeStack.type?_eq, ScopeStack.outerType?, houter, List.findSome?_nil, Option.or_none] at hn
  exact h n (Std.ExtTreeMap.mem_iff_isSome_getElem?.2 hn)

theorem Covers.bound {names : List Name} (h : Covers A s) :
    Covers (A ∪ names.toFinset) (s.bound names) := by
  intro n hn
  rw [Finset.mem_union, List.mem_toFinset]
  rcases mem_innermost_foldl_bind.1 hn with hn | hn
  · exact .inr hn
  · exact .inl (h n hn)

namespace Reaches

theorem stay (h : Covers A s) : Reaches fs A s (some A) := ⟨A, rfl, h, fun _ => subset_rfl⟩

theorem bind {result : Option (Finset Name)} {walk : Finset Name → Option (Finset Name)}
    (h : Reaches fs A t result) (hwalk : ∀ B, Covers B t → Reaches fs B s' (walk B)) :
    Reaches fs A s' (result.bind walk) := by
  obtain ⟨B, rfl, hB, hAB⟩ := h
  obtain ⟨C, hC, hcovers, hBC⟩ := hwalk B hB
  exact ⟨C, hC, hcovers, fun hfs => (hAB hfs).trans (hBC hfs)⟩

/-- With more forms there is less to show. -/
theorem mono {result : Option (Finset Name)} (h : Reaches gs A s' result) (hsub : gs ⊆ fs) :
    Reaches fs A s' result := by
  obtain ⟨B, hB, hcovers, hAB⟩ := h
  exact ⟨B, hB, hcovers, fun hfs => hAB fun f hf => hfs f (hsub hf)⟩

theorem needing {names : List Name} (h : Covers A s) (hnames : ∀ n ∈ names, n ∈ A) :
    Reaches fs A s (needing names A) := by
  rw [ShellOps.needing, if_pos hnames]
  exact stay h

end Reaches

/-! ### Ops one after the other -/

theorem reaches_of_chain {walk : α → Finset Name → Option (Finset Name)} {ops : List α}
    (h : Chain (Finds walk fs) s ops s') (houter : s.scopes.outer = []) {A : Finset Name}
    (hA : Covers A s) : Reaches fs A s' (inTurn (ops.map walk) A) := by
  induction h generalizing A with
  | nil => exact .stay hA
  | cons hop _ ih =>
    have houter' := hop.effect.outer.trans houter
    exact (hop.reaches houter hA).bind fun B hB => ih houter' hB

theorem reaches_namesSteps {ops : List (ValuesOp F)}
    (h : Chain (Finds ValuesOp.namesAfter fs) s ops s') (houter : s.scopes.outer = [])
    (hA : Covers A s) :
    Reaches fs A s' (inTurn (namesSteps ops) A) := by
  rw [namesSteps_eq_map]
  exact reaches_of_chain h houter hA

theorem reaches_alternate {pairs : List (ValuesOp F × ValuesOp F)}
    (h : Chain (InPairs (Finds ValuesOp.namesAfter fs)) s pairs s') (houter : s.scopes.outer = [])
    {A : Finset Name} (hA : Covers A s) :
    Reaches fs A s'
      (inTurn (alternate (namesSteps (pairs.map (·.1))) (namesSteps (pairs.map (·.2)))) A) := by
  induction h generalizing A with
  | nil => simpa only [List.map_nil, namesSteps, alternate, inTurn] using Reaches.stay hA
  | cons hpair _ ih =>
    obtain ⟨u, hkey, hvalue⟩ := hpair
    have houter' := hkey.effect.outer.trans houter
    simp only [List.map_cons, namesSteps, alternate, inTurn]
    exact (hkey.reaches houter hA).bind fun B hB => (hvalue.reaches houter' hB).bind fun C hC =>
      ih (hvalue.effect.outer.trans houter') hC

/-- Steps that lose no name, from any names on, lose none together. -/
theorem inTurn_grows {steps : List (Finset Name → Option (Finset Name))}
    (h : ∀ step ∈ steps, ∀ C, A ⊆ C → ∃ D, step C = some D ∧ C ⊆ D) :
    ∀ C, A ⊆ C → ∃ D, inTurn steps C = some D ∧ C ⊆ D := by
  induction steps with
  | nil => exact fun C _ => ⟨C, rfl, subset_rfl⟩
  | cons step steps ih =>
    rw [List.forall_mem_cons] at h
    intro C hC
    obtain ⟨D, hD, hCD⟩ := h.1 C hC
    obtain ⟨E, hE, hDE⟩ := ih h.2 D (hC.trans hCD)
    exact ⟨E, by rw [inTurn, hD]; exact hE, hCD.trans hDE⟩

/-! ### Ports -/

/-- Ports whose file names rebind nothing find their names wherever those names are still there. -/
theorem grows_of_chain {ops : List (PortOp F)} (hfs : ∀ f ∈ fs, ¬ f.Rebinds)
    (h : Chain (Finds PortOp.namesAfter fs) s ops s') (houter : s.scopes.outer = [])
    (hA : Covers A s) : ∀ op ∈ ops, ∃ D, op.namesAfter A = some D ∧ A ⊆ D := by
  induction h with
  | nil => exact nofun
  | @cons s t _ op ops hop _ ih =>
    have hdel : ∀ f ∈ fs, ¬ f.Is .del := fun f hf h => hfs f hf (.inr (.inl h))
    have hcovers : Covers A t := by
      rw [Covers, hop.effect.keeps hfs]
      exact hA
    obtain ⟨B, hB, -, hAB⟩ := hop.reaches houter hA
    exact List.forall_mem_cons.2 ⟨⟨B, hB, hAB hdel⟩, ih (hop.effect.outer.trans houter) hcovers⟩

/-- Ports of redirections that name no file need no name. -/
theorem namesAfter_of_no_file {o : Options} {rs : List Redirection} {ops : List (PortOp F)}
    (h : List.Forall₂ (PortFor o) rs ops) (hfile : ∀ r ∈ rs, r.isFile = false) (A : Finset Name) :
    ∀ op ∈ ops, op.namesAfter A = some A := by
  induction h with
  | nil => exact nofun
  | cons hport _ ih =>
    rw [List.forall_mem_cons] at hfile
    refine List.forall_mem_cons.2 ⟨?_, ih hfile.2⟩
    cases hport with
    | close pos fd => rw [PortOp.namesAfter]
    | dup pos fd source => rw [PortOp.namesAfter]
    | file => cases hfile.1

/-- The ports of a form lose no name if none of the ops that were put in its table does. -/
theorem grows_portTable {rs : List Redirection} {ops : List (PortOp F)}
    (h : ∀ op ∈ ops, ∀ C, A ⊆ C → ∃ D, op.namesAfter C = some D ∧ C ⊆ D) :
    ∃ D, inTurn (portNames (portTable rs ops)) A = some D ∧ A ⊆ D := by
  refine inTurn_grows (fun step hstep C hC => ?_) A subset_rfl
  rw [portNames_eq_map] at hstep
  obtain ⟨slot, hslot, rfl⟩ := List.mem_map.1 hstep
  rcases mem_portTable hslot with rfl | ⟨op, hop, rfl⟩
  · exact ⟨C, by rw [portName], subset_rfl⟩
  · rw [portName]
    exact h op hop C hC

/-! ### Forms -/

section

variable {env : Env F} {f : Form} {op : ValuesOp F} {portOps : List (PortOp F)}

/-- The names of a form that runs: its command, its arguments, its ports and what it calls. -/
theorem reaches_form {args : ValuesOp F} {ports : List (Option (PortOp F))}
    {resolution : Resolution F} {unset : PortPolicy} {pos : Pos} {u v : CompileState}
    (hop : Reaches fs A t (op.namesAfter A))
    (hargs : ∀ B, Covers B t → Reaches fs B u (args.namesAfter B) ∧
      ∀ C, args.namesAfter B = some C → ∃ D, inTurn (portNames ports) C = some D ∧ C ⊆ D)
    (hcall : ∀ D, Covers D u → Reaches fs D v (resolution.namesAfter D)) :
    Reaches fs A v ((FormOp.mk op args ports resolution unset pos).namesAfter A) := by
  rw [FormOp.namesAfter]
  refine hop.bind fun B hB => ?_
  obtain ⟨⟨C, hC, hcovers, hBC⟩, hports⟩ := hargs B hB
  obtain ⟨D, hD, hCD⟩ := hports C hC
  obtain ⟨E, hE, hcoversE, hDE⟩ := hcall D (hcovers.mono hCD)
  refine ⟨E, ?_, hcoversE, fun hfs => (hBC hfs).trans (hCD.trans (hDE hfs))⟩
  rw [hC, Option.bind_some, hD, Option.bind_some, hE]

theorem finds_sigil {resolution : Resolution F} (b : UInt8) (pos : Pos)
    (h : Finds ValuesOp.namesAfter fs s op t)
    (hcommand : commandOf env.registry [b] (t.scopes.type? (functionName [b])) = .plain resolution)
    (count : Stats → Stats) : Finds ValuesOp.namesAfter fs s
      (ValuesOp.pipeline [some (sigilStage env.options b op resolution pos)] pos).capture
      ((t.counted count).looked (functionName [b])) := by
  refine ⟨h.effect.trans ((Effect.counted t count).trans (.looked _ _)), fun houter A hA => ?_⟩
  obtain ⟨-, hkind, -⟩ := plain_of_commandOf hcommand
  have hstage : Reaches fs A t ((sigilStage env.options b op resolution pos).namesAfter A) := by
    refine reaches_form (t := s) (u := t) ?_ (fun B hB => ⟨h.reaches houter hB, fun C _ => ?_⟩)
      fun D hD => ?_
    · rw [ValuesOp.namesAfter]
      exact .stay hA
    · exact ⟨C, by rw [portNames, inTurn], subset_rfl⟩
    · rw [namesAfter_plain hkind]
      exact .stay hD
  rw [ValuesOp.capture, ValuesOp.namesAfter, ValuesOp.namesAfter, stageNames, stageNames]
  exact hstage.bind fun B hB => .stay hB

/-- The command word of a form reaches the names that are in scope after its redirections were
compiled, and from names that cover those the redirections lose none. -/
theorem reaches_head {c : Command F} (hgood : f.QuietFilenames) (houter : s.scopes.outer = [])
    (hA : Covers A s)
    (h : FormHead env (Finds ValuesOp.namesAfter) (Finds PortOp.namesAfter) f fs s op c portOps t) :
    Reaches fs A t (op.namesAfter A) ∧
      ∀ C, Covers C t → ∀ port ∈ portOps, ∃ D, port.namesAfter C = some D ∧ C ⊆ D := by
  obtain ⟨t₀, u, hop, hfound, hports⟩ := h.parts
  have hkeeps : t.scopes.innermost = u.scopes.innermost :=
    (effect_of_chain Finds.effect hports).keeps hgood
  have hu : u.scopes.outer = [] := by
    rw [hfound.scopes, hop.effect.outer]
    exact houter
  obtain ⟨B, hB, hcovers, hAB⟩ := hop.reaches houter hA
  constructor
  · refine ⟨B, hB, ?_, hAB⟩
    rwa [Covers, hkeeps, hfound.scopes]
  · intro C hC
    refine grows_of_chain hgood hports hu ?_
    rwa [Covers, ← hkeeps]

/-- **Plain forms.** The arguments run before the ports, though they were compiled after them. The
ports find their names all the same: with a file name among them, no argument takes a name away. -/
theorem finds_plainForm {resolution : Resolution F} {args : List (ValuesOp F)} (hgood : f.Orderly)
    (hfs : formsInForm false f ⊆ fs)
    (h : FormHead env (Finds ValuesOp.namesAfter) (Finds PortOp.namesAfter) f fs s op
      (.plain resolution) portOps t)
    (hargs : Chain (Finds ValuesOp.namesAfter (formsInWords false f.args)) t args s') :
    Finds FormOp.namesAfter fs s ⟨op, .spaced args f.argsPos, portTable f.redirections portOps,
      resolution, env.options.unsetPorts, f.pos⟩ s' := by
  have hhead : Effect fs s t := .head Finds.effect Finds.effect hfs h
  refine ⟨hhead.trans (.arguments Finds.effect hfs hargs), fun houter A hA => ?_⟩
  have hkind : resolution.kind ≠ .special := by
    obtain ⟨_, _, -, hfound, -⟩ := h.parts
    exact hfound.plain.2
  obtain ⟨hop, hports⟩ := reaches_head hgood.1 houter hA h
  refine reaches_form (u := s') hop (fun B hB => ?_) fun D hD => ?_
  · have hreaches := reaches_namesSteps hargs (hhead.outer.trans houter) hB
    rw [ValuesOp.namesAfter]
    refine ⟨hreaches.mono (List.Subset.trans (args_subset_formsInForm false f) hfs), fun C hC => ?_⟩
    refine grows_portTable fun port hport C' hC' => ?_
    cases hfile : f.redirections.any Redirection.isFile with
    | true =>
      obtain ⟨C₀, hC₀, -, hBC⟩ := hreaches
      obtain rfl := Option.some.inj (hC₀.symm.trans hC)
      exact hports C' (hB.mono ((hBC (hgood.2 (.inr hfile))).trans hC')) port hport
    | false =>
      have hnone : ∀ r ∈ f.redirections, r.isFile = false := by
        simpa using List.any_eq_false.1 hfile
      exact ⟨C', namesAfter_of_no_file h.ports hnone C' port hport, subset_rfl⟩
  · rw [namesAfter_plain hkind]
    exact .stay hD

theorem finds_specialForm {entry : Builtin (SpecialForm F)} {special : ValuesOp F}
    (hgood : f.Orderly) (hfs : formsInForm false f ⊆ fs)
    (h : FormHead env (Finds ValuesOp.namesAfter) (Finds PortOp.namesAfter) f fs s op
      (.special entry) portOps t)
    (hspecial : Finds ValuesOp.namesAfter fs t special s') :
    Finds FormOp.namesAfter fs s ⟨op, .missing, portTable f.redirections portOps,
      .ofSpecial { id := entry.id, name := entry.name, body := () } special,
      env.options.unsetPorts, f.pos⟩ s' := by
  have hhead : Effect fs s t := .head Finds.effect Finds.effect hfs h
  refine ⟨hhead.trans hspecial.effect, fun houter A hA => ?_⟩
  obtain ⟨hop, hports⟩ := reaches_head hgood.1 houter hA h
  refine reaches_form (u := t) hop (fun B hB => ?_) fun D hD => ?_
  · rw [ValuesOp.namesAfter]
    refine ⟨.stay hB, fun C hC => grows_portTable fun port hport C' hC' => ?_⟩
    obtain rfl := Option.some.inj hC
    exact hports C' (hB.mono hC') port hport
  · rw [Resolution.ofSpecial, Resolution.namesAfter]
    exact hspecial.reaches (hhead.outer.trans houter) hD

/-! ### Special forms -/

theorem finds_declare {names : List Name} (pos : Pos) (hf : f.Is .var)
    (hfs : formsInForm false f ⊆ fs) :
    Finds ValuesOp.namesAfter fs s (.var names .missing pos : ValuesOp F) (s.bound names) := by
  refine ⟨.bound hf hfs names, fun _ A hA => ?_⟩
  rw [ValuesOp.namesAfter, ValuesOp.namesAfter, Option.bind_some]
  exact ⟨_, rfl, hA.bound, fun _ => Finset.subset_union_left⟩

theorem finds_var {names : List Name} {values : List (ValuesOp F)} (valuesPos pos : Pos)
    (hf : f.Is .var) (hfs : formsInForm false f ⊆ fs)
    (h : Chain (Finds ValuesOp.namesAfter (formsInWords false f.args)) s values t) :
    Finds ValuesOp.namesAfter fs s (.var names (.spaced values valuesPos) pos) (t.bound names) := by
  refine ⟨(Effect.arguments Finds.effect hfs h).trans (.bound hf hfs names), fun houter A hA => ?_⟩
  have hvalues := (reaches_namesSteps h houter hA).mono
    (List.Subset.trans (args_subset_formsInForm false f) hfs)
  rw [ValuesOp.namesAfter, ValuesOp.namesAfter]
  exact hvalues.bind fun B hB => ⟨_, rfl, hB.bound, fun _ => Finset.subset_union_left⟩

/-- The names that `set` assigns to were looked up first. They are still there after the values ran,
since no value takes a name away. -/
theorem finds_set {names : List Name} {values : List (ValuesOp F)} (valuesPos pos : Pos)
    (hgood : f.Orderly) (hf : f.Is .set) (hfs : formsInForm false f ⊆ fs)
    (hnames : ∀ n ∈ names, (s.scopes.type? n).isSome)
    (h : Chain (Finds ValuesOp.namesAfter (formsInWords false f.args))
      (names.foldl (·.looked ·) s) values s') :
    Finds ValuesOp.namesAfter fs s (.set names (.spaced values valuesPos) pos) s' := by
  have hlooked : Effect fs s (names.foldl (·.looked ·) s) := .lookedAll names s
  refine ⟨hlooked.trans (.arguments Finds.effect hfs h), fun houter A hA => ?_⟩
  have hcovers : Covers A (names.foldl (·.looked ·) s) := by
    rwa [Covers, CompileState.scopes_lookedAll]
  obtain ⟨B, hB, hcoversB, hAB⟩ := reaches_namesSteps h (hlooked.outer.trans houter) hcovers
  have hsub : A ⊆ B := hAB (hgood.2 (.inl hf))
  rw [ValuesOp.namesAfter, ValuesOp.namesAfter, hB, Option.bind_some, needing,
    if_pos fun n hn => hsub (hA.mem houter (hnames n hn))]
  exact ⟨B, rfl, hcoversB, fun _ => hsub⟩

theorem finds_del {names : List Name} {frame : Frame} (pos : Pos) (hf : f.Is .del)
    (hfs : formsInForm false f ⊆ fs) (hframe : deleteNames names s.scopes.innermost = some frame) :
    Finds ValuesOp.namesAfter fs s (.del names pos : ValuesOp F)
      { s with scopes := { s.scopes with innermost := frame } } := by
  refine ⟨.deleted hf hfs frame, fun _ A hA => ?_⟩
  rw [ValuesOp.namesAfter]
  refine ⟨_, rfl, fun n hn => ?_, fun hno => absurd hf (hno f (hfs (mem_formsInForm false f)))⟩
  obtain ⟨hmem, hnot⟩ := mem_of_deleteNames hframe hn
  rw [Finset.mem_sdiff, List.mem_toFinset]
  exact ⟨hA n hmem, hnot⟩

end

/-! ### Whole scripts -/

/-- **Ops are built to find their names.** The walk of an op in the order of running goes through, if
every form that runs is orderly and `fn` is not among the special forms. -/
theorem finds {env : Env F} (hfn : env.registry.findSpecial (utf8 BindingForm.fn.name) = none) :
    Builds env (Finds ValuesOp.namesAfter) (Finds PortOp.namesAfter) false Form.Orderly
      (Finds FormOp.namesAfter) where
  nested h := ⟨h.effect.nested, h.reaches⟩
  nestedForm h := ⟨h.effect.nested, h.reaches⟩
  string text pos := by
    refine ⟨.refl _ _, fun _ A hA => ?_⟩
    rw [ValuesOp.namesAfter]
    exact .stay hA
  reference pos h := by
    refine ⟨(Effect.looked _ _).trans (.counted _ _), fun houter A hA => ?_⟩
    rw [ValuesOp.namesAfter]
    exact .needing hA (List.forall_mem_singleton.2 (hA.mem houter (by rw [h]; rfl)))
  word pos _ h := by
    refine ⟨effect_of_chain Finds.effect h, fun houter A hA => ?_⟩
    rw [namesAfter_word]
    exact reaches_namesSteps h houter hA
  sigil b pos h hcommand := finds_sigil b pos h hcommand _
  indexed pos h h' := by
    refine ⟨h.effect.trans h'.effect, fun houter A hA => ?_⟩
    rw [namesAfter_indexed]
    exact (h.reaches houter hA).bind fun B hB => h'.reaches (h.effect.outer.trans houter) hB
  spaced pos h := by
    refine ⟨effect_of_chain Finds.effect h, fun houter A hA => ?_⟩
    rw [ValuesOp.namesAfter]
    exact reaches_namesSteps h houter hA
  table pos h h' := by
    have hitems : Effect _ _ _ := effect_of_chain Finds.effect h
    have hpairs : Effect _ _ _ := effect_of_pairs Finds.effect h'
    refine ⟨hitems.trans hpairs, fun houter A hA => ?_⟩
    rw [ValuesOp.namesAfter, ValuesOp.namesAfter]
    exact (reaches_namesSteps h houter hA).bind fun B hB =>
      reaches_alternate h' (hitems.outer.trans houter) hB
  closure params pos _ hvisible := by
    refine ⟨.passedOn _ _, fun houter A hA => ?_⟩
    rw [ValuesOp.closureOf, ValuesOp.namesAfter]
    refine .needing hA fun n hn => ?_
    obtain ⟨u, hu⟩ := Option.isSome_iff_exists.1
      (Std.ExtTreeMap.mem_iff_isSome_getElem?.1 (Std.ExtTreeMap.mem_keys.1 hn))
    exact hA.mem houter (by rw [hvisible n u hu]; rfl)
  pipeline pos h := by
    refine ⟨effect_of_chain Finds.effect h, fun houter A hA => ?_⟩
    rw [ValuesOp.namesAfter, stageNames_eq_map, List.map_map]
    exact reaches_of_chain h houter hA
  capture h := by
    refine ⟨h.effect, fun houter A hA => ?_⟩
    rw [ValuesOp.capture, ValuesOp.namesAfter]
    exact h.reaches houter hA
  plainForm := finds_plainForm
  specialForm := finds_specialForm
  var valuesPos _ hf hfs _ _ h := finds_var valuesPos _ hf hfs h
  declare _ hf hfs _ _ := finds_declare _ hf hfs
  set valuesPos pos hgood hf hfs _ hnames h := finds_set valuesPos pos hgood hf hfs hnames h
  del pos hf hfs _ hframe := finds_del pos hf hfs hframe
  fn _ _ hspecial := by simp [hfn] at hspecial
  closePort _ := by
    refine ⟨.refl _ _, fun _ A hA => ?_⟩
    rw [PortOp.namesAfter]
    exact .stay hA
  dupPort _ _ _ := by
    refine ⟨.refl _ _, fun _ A hA => ?_⟩
    rw [PortOp.namesAfter]
    exact .stay hA
  filePort _ _ h := by
    refine ⟨h.effect, fun houter A hA => ?_⟩
    rw [PortOp.namesAfter]
    exact h.reaches houter hA

/-- **What a run finds.** A script compiles with special forms among `var`, `set` and `del`, and its op
runs on a flat store that has the names of the root frame. If the walk of the op in the order of
running goes through, as it does when all forms that run are orderly, then the run does not fail
because a variable or a captured variable is not found. If it does not go through, then the run does
not succeed. -/
theorem run_finds_names (c : Compiler F) (hcore : c.registry.CoreOnly)
    (hfn : c.registry.findSpecial (utf8 BindingForm.fn.name) = none) (source : Source) (chunk : Chunk)
    (root : Frame) {op : ValuesOp F} {stats : Stats}
    (h : c.compile source chunk root = .ok ⟨.ok op, stats⟩) {ev : Evaluator w F}
    {defined : w.State → Finset Name} (hev : FlatEvaluator ev defined) (σ : w.State)
    (hroot : ∀ n ∈ root, n ∈ defined σ) :
    ((∀ f ∈ formsInPipelines false chunk.pipelines, f.Orderly) →
      (op.namesAfter (defined σ)).isSome) ∧
    ((op.namesAfter (defined σ)).isSome → ∀ e σ', Run.outcome (op.eval ev) σ = (.error e, σ') →
      ∀ n, e.fault ≠ .variableNotFound n ∧ e.fault ≠ .capturedNotFound n) ∧
    (op.namesAfter (defined σ) = none → ∃ e σ', Run.outcome (op.eval ev) σ = (.error e, σ')) := by
  have htracks := hev.eval_tracks op σ
  refine ⟨fun horderly => ?_, fun hsome e σ' hrun n => ?_, fun hnone => ?_⟩
  · obtain ⟨ops, s', hops, rfl, -⟩ := gives_of_compile h
    have hchain := compilePipelines_builds (finds hfn) hcore chunk.pipelines
      ⟨horderly, List.Subset.refl _⟩ hops
    obtain ⟨B, hB, -⟩ := reaches_namesSteps hchain rfl hroot
    rw [ValuesOp.namesAfter, hB]
    rfl
  · simp only [hrun] at htracks
    have hfault := htracks hsome
    constructor <;> intro hmisses <;> rw [hmisses] at hfault <;> cases hfault
  · rcases hrun : Run.outcome (op.eval ev) σ with ⟨e | v, σ'⟩
    · exact ⟨e, σ', rfl⟩
    · simp only [hrun, hnone] at htracks
      cases htracks

/-! ### Scripts -/

/-- The compiler whose special forms are `var`, `set` and `del`. -/
def withoutFunctions : Compiler Machine.Function :=
  ⟨Registry.empty.registerCore.unregisterSpecial (utf8 BindingForm.fn.name), {}⟩

theorem coreOnly_withoutFunctions : withoutFunctions.registry.CoreOnly :=
  Registry.coreOnly_empty.registerCore.unregister _

theorem findSpecial_fn_withoutFunctions :
    withoutFunctions.registry.findSpecial (utf8 BindingForm.fn.name) = none := by
  rw [withoutFunctions, Registry.findSpecial_unregisterSpecial, if_pos rfl]

/-- The machine with the variable `x`. -/
def machineWithX : Machine.State :=
  Machine.Setup.start { bindings := [(utf8 "x", .string (utf8 "a"))] }

/-- What a form writes. -/
def outputOf (forms : List Form) : Primary := .chanCapture 0 (some ⟨0, forms⟩)

/-- The script `var y = a; f { put $x $y }; set x = (var z = $y | put $z) $y; del y; f $z > (put $x)`.
On the quiet machine its last form fails, since nothing is written for the name of the file. -/
def orderlyScript : Chunk := codeOf
  [formOf "var" [.string 0 (utf8 "y"), .string 0 (utf8 "="), .string 0 (utf8 "a")],
    formOf "f" [.closure 0 (some (closureOf []
      [formOf "put" [.variable 0 (utf8 "x"), .variable 0 (utf8 "y")]]))],
    formOf "set" [.string 0 (utf8 "x"), .string 0 (utf8 "="), outputOf
      [formOf "var" [.string 0 (utf8 "z"), .string 0 (utf8 "="), .variable 0 (utf8 "y")],
        formOf "put" [.variable 0 (utf8 "z")]], .variable 0 (utf8 "y")],
    formOf "del" [.string 0 (utf8 "y")],
    { formOf "f" [.variable 0 (utf8 "z")] with
      redirections := [intoFile (outputOf [formOf "put" [.variable 0 (utf8 "x")]])] }]

/-- The fault with which an op ends on the quiet machine. -/
def quietFault? (σ : Machine.State) (op : ValuesOp Machine.Function) : Option EvalFault :=
  match Run.outcome (op.eval Machine.quiet) σ with
  | (.error e, _) => some e.fault
  | (.ok _, _) => none

theorem exists_of_quietFault {σ : Machine.State} {op : ValuesOp Machine.Function} {fault : EvalFault}
    (h : quietFault? σ op = some fault) : ∃ e σ',
      Run.outcome (op.eval Machine.quiet) σ = (.error e, σ') ∧ e.fault = fault := by
  unfold quietFault? at h
  split at h
  · next e σ' hout => exact ⟨e, σ', hout, Option.some.inj h⟩
  · cases h

theorem run_finds_names_orderly :
    (∀ f ∈ formsInPipelines false orderlyScript.pipelines, f.Orderly) ∧
    ∃ op stats,
      withoutFunctions.compile ⟨[], []⟩ orderlyScript {(utf8 "x", .any)} = .ok ⟨.ok op, stats⟩ ∧
      ∃ e σ', Run.outcome (op.eval Machine.quiet) machineWithX = (.error e, σ') ∧
        ∀ n, e.fault ≠ .variableNotFound n ∧ e.fault ≠ .capturedNotFound n := by
  have horderly : ∀ f ∈ formsInPipelines false orderlyScript.pipelines, f.Orderly := by decide +kernel
  have hroot : ∀ n ∈ ({(utf8 "x", .any)} : Frame), n ∈ Machine.names machineWithX := by
    intro n hn
    obtain rfl : utf8 "x" = n := by simpa using hn
    rw [Machine.mem_names]
    decide +kernel
  obtain ⟨op, stats, h, hfault⟩ := exists_of_compile withoutFunctions ⟨[], []⟩ orderlyScript
    {(utf8 "x", .any)} (quietFault? machineWithX · = some (.notSingle .filename 0)) (by decide +kernel)
  obtain ⟨e, σ', hrun, -⟩ := exists_of_quietFault (of_decide_eq_true hfault)
  obtain ⟨hwalk, hfinds, -⟩ := run_finds_names withoutFunctions coreOnly_withoutFunctions
    findSpecial_fn_withoutFunctions _ _ _ h Machine.quiet_flat machineWithX hroot
  exact ⟨horderly, op, stats, h, e, σ', hrun, hfinds (hwalk horderly) e σ' hrun⟩

/-- The script compiles in the given root frame, and does not find the variable `n` when it runs on the
quiet machine from the state `σ`. -/
def Misses (chunk : Chunk) (root : Frame) (σ : Machine.State) (n : Name) : Prop :=
  ∃ op stats, withoutFunctions.compile ⟨[], []⟩ chunk root = .ok ⟨.ok op, stats⟩ ∧
    ∃ e σ', Run.outcome (op.eval Machine.quiet) σ = (.error e, σ') ∧ e.fault = .variableNotFound n

theorem misses_of_any {chunk : Chunk} {root : Frame} {σ : Machine.State} {n : Name}
    (h : ((withoutFunctions.compile ⟨[], []⟩ chunk root).toOption.bind (·.outcome.toOption)).any
      (quietFault? σ · = some (.variableNotFound n))) : Misses chunk root σ n := by
  obtain ⟨op, stats, hcompile, hfault⟩ := exists_of_compile _ _ _ _ _ h
  exact ⟨op, stats, hcompile, exists_of_quietFault (of_decide_eq_true hfault)⟩

/-- The script `f $y > (var y = a | put z)`. -/
def lateBinding : Chunk := codeOf
  [{ formOf "f" [.variable 0 (utf8 "y")] with
    redirections := [intoFile (outputOf
      [formOf "var" [.string 0 (utf8 "y"), .string 0 (utf8 "="), .string 0 (utf8 "a")],
        formOf "put" [.string 0 (utf8 "z")]])] }]

/-- The script `f (del x) > $x`. -/
def earlyDeletion : Chunk := codeOf
  [{ formOf "f" [outputOf [formOf "del" [.string 0 (utf8 "x")]]] with
    redirections := [intoFile (.variable 0 (utf8 "x"))] }]

/-- The script `set x = (del x) a`. -/
def deletedTarget : Chunk := codeOf
  [formOf "set" [.string 0 (utf8 "x"), .string 0 (utf8 "="),
    outputOf [formOf "del" [.string 0 (utf8 "x")]], .string 0 (utf8 "a")]]

/-- None of the three conditions of being orderly can be dropped: these scripts compile, and miss a
name when they run. -/
theorem disorderly_scripts_miss_names :
    FlatEvaluator Machine.quiet Machine.names ∧ Misses lateBinding ∅ {} (utf8 "y") ∧
      Misses earlyDeletion {(utf8 "x", .any)} machineWithX (utf8 "x") ∧
      Misses deletedTarget {(utf8 "x", .any)} machineWithX (utf8 "x") := by
  refine ⟨Machine.quiet_flat, misses_of_any ?_, misses_of_any ?_, misses_of_any ?_⟩ <;>
    decide +kernel

end ShellOps
