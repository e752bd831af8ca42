/-
# Relations that compiling respects

Compiling a tree is put together from a few steps: looking a name up, binding and unbinding names,
counting, failing, going one level deeper, and entering and leaving a closure. A relation between
steps that holds of those, and that sequencing keeps, holds between the compilations of every tree
in two environments which differ in their depth limits and sources only (`compilePipelines_respects`), if
the special forms that are registered respect it (`SpecialsRelated`); the four that bind names do, since
they are put together from fewer steps still (`FormRelation`). A property of single steps is a relation
that does not look at its second side. Of the failures for a broken tree and of the look-ups only some
need to be respected (`Allowance`), as long as the tree has no other flaw and mentions no other name.

The public operations of a compilation unit are listed once (`Node`, `UnitStep`), so that a fact
about all of them is one statement.
-/
import Mathlib.Data.List.Forall2
import ShellOps.Proofs.Mentions
import ShellOps.Proofs.Steps

namespace ShellOps

variable {F : Type}

/-- A relation between steps that holds of what a unit offers to special forms: looking a name up, asking
whether the innermost frame binds it, binding and unbinding it, and failing. The flaws of the tree that
are met and the names that are looked up are those that are allowed. -/
structure FormRelation (A : Allowance) (R : {α : Type} → CompileM α → CompileM α → Prop) : Prop where
  pure : ∀ {α : Type} (a : α), R (pure a) (pure a)
  sequence : ∀ {α β : Type} {x y : CompileM α} {f g : α → CompileM β},
    R x y → (∀ a, x.CanGive a → R (f a) (g a)) → R (x >>= f) (y >>= g)
  reject : ∀ {α : Type} (pos : Pos) (cause : Rejection),
    R (CompileM.reject pos cause : CompileM α) (CompileM.reject pos cause)
  malformed : ∀ {α : Type} {cause : Malformed}, A.flaw cause →
    R (CompileM.malformed cause : CompileM α) (CompileM.malformed cause)
  bindName : ∀ n t, R (CompileM.bind n t) (CompileM.bind n t)
  unbind : ∀ n, R (CompileM.unbind n) (CompileM.unbind n)
  hasLocal : ∀ {n}, A.name n → R (CompileM.hasLocal n) (CompileM.hasLocal n)
  resolve : ∀ {n}, A.name n → R (CompileM.resolve n) (CompileM.resolve n)

/-- A relation between steps under the options `o₁` and `o₂` that everything a compilation is made
of respects. Only the end of a closure counts closures, and only going deeper counts the depth. -/
structure StepRelation (A : Allowance) (o₁ o₂ : Options)
    (R : {α : Type} → CompileM α → CompileM α → Prop) : Prop extends FormRelation A R where
  count : ∀ f, (∀ c, (f c).maxDepth = c.maxDepth ∧ (f c).closures = c.closures) →
    R (CompileM.count f) (CompileM.count f)
  nested : ∀ {α : Type} {x y : CompileM α} (pos : Pos),
    R x y → R (CompileM.nested o₁ pos x) (CompileM.nested o₂ pos y)
  closure : ∀ {G : Type} {x y : CompileM (List (ValuesOp G))} (pos : Pos) (params : List Name),
    R x y → R (closureAround o₁ pos params x) (closureAround o₂ pos params y)
  forwarding : ∀ {G : Type} {x y : CompileM (List (ValuesOp G))} (pos : Pos) (params : List Name),
    R x y → R (forwarding (closureAround o₁ pos params x)) (forwarding (closureAround o₂ pos params y))

/-- Environments that differ in their depth limits and sources only. -/
structure Env.Agree (e₁ e₂ : Env F) : Prop where
  registry : e₁.registry = e₂.registry
  maxFd : e₁.options.maxFd = e₂.options.maxFd
  unsetPorts : e₁.options.unsetPorts = e₂.options.unsetPorts
  fileMode : e₁.options.fileMode = e₂.options.fileMode

theorem Env.Agree.refl (e : Env F) : e.Agree e := ⟨rfl, rfl, rfl, rfl⟩

section

variable {A : Allowance} {R : {α : Type} → CompileM α → CompileM α → Prop}
variable {args₁ args₂ : List (Argument F)}

/-- Arguments of a special form that are the same word and compile by related steps. If the word is
missing, or is a closure literal whose closure is missing, that flaw is allowed; if it is a string, that
name is. -/
structure RelatedArgument (A : Allowance)
    (R : {α : Type} → CompileM α → CompileM α → Prop) (a b : Argument F) : Prop where
  word : a.word = b.word
  compile : R a.compile b.compile
  closure : Option.Rel (fun x y => R x y ∧ R (forwarding x) (forwarding y)) a.closure b.closure
  missing : a.word = none → A.flaw .missingArgument
  incomplete : ∀ {w pos literal}, a.word = some w → w.sole? = some (.closure pos literal) →
    a.closure = none → A.flaw .missingClosure
  named : ∀ {w n}, a.word = some w → w.plain? = some n → A.name n

theorem related_words (h : List.Forall₂ (RelatedArgument A R) args₁ args₂) :
    args₁.map (·.word) = args₂.map (·.word) := by
  induction h with
  | nil => rfl
  | cons h _ ih => rw [List.map_cons, List.map_cons, h.word, ih]

/-- What stands among arguments is allowed: that a word is missing, and the name that a word gives. -/
theorem word_allowed (h : List.Forall₂ (RelatedArgument A R) args₁ args₂) {w : Option Word}
    (hw : w ∈ args₁.map (·.word)) :
    (w = none → A.flaw .missingArgument) ∧ ∀ n, w.bind Word.plain? = some n → A.name n := by
  induction h with
  | nil => simp at hw
  | cons h _ ih =>
    rcases List.mem_cons.1 hw with rfl | hrest
    · refine ⟨h.missing, fun n hn => ?_⟩
      obtain ⟨v, hv, hplain⟩ := Option.bind_eq_some_iff.1 hn
      exact h.named hv hplain
    · exact ih hrest

/-- A choice, where each side may use how it was made. -/
theorem related_dite {α : Type} {x x' y y' : CompileM α} {c : Prop} [Decidable c]
    (h : c → R x y) (h' : ¬ c → R x' y') : R (if c then x else x') (if c then y else y') := by
  by_cases hc : c
  · rw [if_pos hc, if_pos hc]
    exact h hc
  · rw [if_neg hc, if_neg hc]
    exact h' hc

theorem related_ite {α : Type} {x x' y y' : CompileM α} (c : Prop) [Decidable c] (h : R x y)
    (h' : R x' y') : R (if c then x else x') (if c then y else y') :=
  related_dite (fun _ => h) fun _ => h'

namespace FormRelation

variable (H : FormRelation A R)
include H

theorem bind {α β : Type} {x y : CompileM α} {f g : α → CompileM β} (h : R x y)
    (hfg : ∀ a, R (f a) (g a)) : R (x >>= f) (y >>= g) := H.sequence h fun a _ => hfg a

theorem mustResolve {n : Name} (hn : A.name n) (pos : Pos) :
    R (CompileM.mustResolve n pos) (CompileM.mustResolve n pos) := by
  refine H.bind (H.resolve hn) fun t => ?_
  cases t with
  | none => exact H.reject _ _
  | some t => exact H.pure t

theorem forM {β : Type} {f : β → CompileM Unit} (h : ∀ b, R (f b) (f b)) :
    ∀ bs : List β, R (bs.forM f) (bs.forM f)
  | [] => H.pure ()
  | b :: bs => H.bind (h b) fun _ => forM h bs

/-! ### Special forms -/

theorem mustName (form : BindingForm) (w : Word) : R (mustName form w) (mustName form w) := by
  obtain ⟨n, -, -, -, h⟩ | h := mustName_eq form w
  · rw [h]
    exact H.pure n
  · rw [h]
    exact H.reject _ _

theorem scanWords (form : BindingForm) {check : Name → Pos → CompileM Unit}
    (hcheck : ∀ {n} pos, A.name n → R (check n pos) (check n pos)) :
    ∀ ws : List (Option Word), (∀ w ∈ ws, (w = none → A.flaw .missingArgument) ∧
        ∀ n, w.bind Word.plain? = some n → A.name n) →
      R (scanWords form check ws) (scanWords form check ws) := by
  intro ws hws
  induction ws with
  | nil => exact H.pure _
  | cons w ws ih =>
    obtain ⟨hmissing, hname⟩ := hws w List.mem_cons_self
    cases w with
    | none => exact H.malformed (hmissing rfl)
    | some w =>
      have hrest := ih fun w' hw' => hws w' (List.mem_cons_of_mem _ hw')
      refine related_ite _ (H.pure _) (H.sequence (H.mustName form w) fun n hn => ?_)
      have hn : A.name n := hname n (plain_of_mustName hn)
      exact H.bind (hcheck w.pos hn) fun _ => H.bind hrest fun _ => H.pure _

theorem compileArguments (h : List.Forall₂ (RelatedArgument A R) args₁ args₂) (pos : Pos) :
    R (compileArguments args₁ pos) (compileArguments args₂ pos) := by
  refine H.bind ?_ fun _ => H.pure _
  induction h with
  | nil => exact H.pure []
  | cons h _ ih =>
    rw [List.mapM_cons, List.mapM_cons]
    exact H.bind h.compile fun _ => H.bind ih fun _ => H.pure _

theorem scanNames_bind {β : Type} (h : List.Forall₂ (RelatedArgument A R) args₁ args₂)
    (form : BindingForm) {check : Name → Pos → CompileM Unit}
    (hcheck : ∀ {n} pos, A.name n → R (check n pos) (check n pos))
    {f g : List Name × Option (Pos × List (Argument F)) → CompileM β}
    (hnone : ∀ names, R (f (names, none)) (g (names, none)))
    (hsome : ∀ names pos rest₁ rest₂, List.Forall₂ (RelatedArgument A R) rest₁ rest₂ →
      R (f (names, some (pos, rest₁))) (g (names, some (pos, rest₂)))) :
    R (scanNames form check args₁ >>= f) (scanNames form check args₂ >>= g) := by
  have hwords := fun w hw => word_allowed h (w := w) hw
  rw [scanNames_eq_scanWords, scanNames_eq_scanWords, ← related_words h]
  simp only [bind_assoc, pure_bind]
  refine H.bind (H.scanWords form hcheck _ hwords) fun (names, place) => ?_
  cases place with
  | none => exact hnone names
  | some pos => exact hsome names pos _ _ (List.forall₂_drop _ h)

variable {call₁ call₂ : SpecialCall F}

theorem compileVar (h : List.Forall₂ (RelatedArgument A R) call₁.args call₂.args)
    (hpos : call₁.pos = call₂.pos) : R (compileVar call₁) (compileVar call₂) := by
  unfold ShellOps.compileVar
  rw [hpos]
  have hbind (names : List Name) :
      R (names.forM (CompileM.bind · .any)) (names.forM (CompileM.bind · .any)) :=
    H.forM (fun n => H.bindName n .any) names
  refine H.scanNames_bind h .var (fun _ _ => H.pure ()) (fun names => ?_)
    (fun names pos rest₁ rest₂ hrest => ?_)
  · refine related_ite _ (H.bind (H.reject _ _) fun _ => ?_) ?_
    all_goals exact H.bind (H.pure _) fun op => H.bind (hbind names) fun _ => H.pure _
  · refine related_ite _ (H.bind (H.reject _ _) fun _ => ?_) ?_
    all_goals
      refine H.bind (H.compileArguments hrest pos) fun op => ?_
      exact H.bind (hbind names) fun _ => H.pure _

theorem compileSet (h : List.Forall₂ (RelatedArgument A R) call₁.args call₂.args)
    (hpos : call₁.pos = call₂.pos) : R (compileSet call₁) (compileSet call₂) := by
  unfold ShellOps.compileSet
  rw [hpos]
  refine H.scanNames_bind h .set (fun pos hn => H.bind (H.mustResolve hn pos) fun _ => H.pure ())
    (fun names => ?_) (fun names pos rest₁ rest₂ hrest => ?_)
  · refine related_ite _ (H.bind (H.reject _ _) fun _ => ?_) ?_
    all_goals exact H.reject _ _
  · refine related_ite _ (H.bind (H.reject _ _) fun _ => ?_) ?_
    all_goals exact H.bind (H.compileArguments hrest pos) fun op => H.pure _

theorem must {a b : Argument F} (h : RelatedArgument A R a b) : R a.must b.must := by
  unfold Argument.must
  rw [← h.word]
  cases hword : a.word with
  | none => exact H.malformed (h.missing hword)
  | some w => exact H.pure w

theorem unbindNames (h : List.Forall₂ (RelatedArgument A R) args₁ args₂) :
    R (unbindNames args₁) (unbindNames args₂) := by
  induction h with
  | nil => exact H.pure []
  | cons hab _ ih =>
    refine H.sequence (H.must hab) fun w hw => H.sequence (H.mustName .del w) fun n hn => ?_
    have hn : A.name n := hab.named (word_of_must hw) (plain_of_mustName hn)
    refine H.bind (H.hasLocal hn) fun l => related_ite _ (H.bind (H.reject _ _) fun _ => ?_) ?_
    all_goals exact H.bind (H.unbind n) fun _ => H.bind ih fun _ => H.pure _

theorem compileDel (h : List.Forall₂ (RelatedArgument A R) call₁.args call₂.args)
    (hpos : call₁.pos = call₂.pos) : R (compileDel call₁) (compileDel call₂) := by
  unfold ShellOps.compileDel
  rw [hpos]
  refine H.bind (H.unbindNames h) fun names => related_ite _ (H.bind (H.reject _ _) fun _ => ?_) ?_
  all_goals exact H.pure _

theorem compileFn (h : List.Forall₂ (RelatedArgument A R) call₁.args call₂.args)
    (hpos : call₁.pos = call₂.pos) : R (compileFn call₁) (compileFn call₂) := by
  unfold ShellOps.compileFn
  rw [hpos]
  generalize call₁.args = args₁ at h
  generalize call₂.args = args₂ at h
  match args₁, args₂, h with
  | [], [], _ => exact H.reject _ _
  | [_], [_], _ => exact H.reject _ _
  | _ :: _ :: _ :: _, _ :: _ :: _ :: _, _ => exact H.reject _ _
  | [name₁, body₁], [name₂, body₂], .cons hname (.cons hbody .nil) =>
    refine H.bind (H.must hname) fun w => H.bind (H.mustName .fn w) fun n => ?_
    refine H.sequence (H.must hbody) fun body hgives => ?_
    have hincomplete := @hbody.incomplete body
    have hclosure := hbody.closure
    rw [word_of_must hgives] at hincomplete
    generalize body₁.closure = step₁ at hclosure hincomplete
    generalize body₂.closure = step₂ at hclosure
    cases hsole : body.sole? with
    | none => exact H.reject _ _
    | some head =>
      cases head with
      | closure pos literal =>
        cases hclosure with
        | none => exact H.malformed (hincomplete rfl hsole rfl)
        | some hstep => exact H.bind (H.bindName _ _) fun _ => H.bind hstep.2 fun _ => H.pure _
      | _ => exact H.reject _ _

/-- Each of the four forms that bind names respects the relation. -/
theorem bindingForm (h : List.Forall₂ (RelatedArgument A R) call₁.args call₂.args)
    (hpos : call₁.pos = call₂.pos) (f : BindingForm) : R (f.compile call₁) (f.compile call₂) := by
  cases f with
  | var => exact H.compileVar h hpos
  | set => exact H.compileSet h hpos
  | del => exact H.compileDel h hpos
  | fn => exact H.compileFn h hpos

end FormRelation

end

/-- Each of the four forms that bind names gives an op, if it compiles. -/
theorem BindingForm.exists_op {f : BindingForm} {call : SpecialCall F}
    {result : Option (ValuesOp F)} (h : (f.compile call).CanGive result) : ∃ op, result = some op := by
  obtain ⟨s, s', h⟩ := h
  have hpure {op : ValuesOp F} {t : CompileState}
      (h : (pure (some op) : CompileM (Option (ValuesOp F))).Gives t result s') :
      ∃ op, result = some op := ⟨op, (CompileM.gives_pure.1 h).1⟩
  cases f with
  | var =>
    obtain ⟨⟨names, values⟩, t, -, h⟩ := CompileM.gives_bind.1 h
    cases names with
    | nil => simp at h
    | cons n names =>
      simp only [List.isEmpty_cons, Bool.false_eq_true, if_false] at h
      cases values
      all_goals
        obtain ⟨_, _, -, h⟩ := CompileM.gives_bind.1 h
        obtain ⟨_, _, -, h⟩ := CompileM.gives_bind.1 h
        exact hpure h
  | set =>
    obtain ⟨⟨names, values⟩, t, -, h⟩ := CompileM.gives_bind.1 h
    cases names with
    | nil => simp at h
    | cons n names =>
      simp only [List.isEmpty_cons, Bool.false_eq_true, if_false] at h
      cases values with
      | none => exact absurd h CompileM.gives_reject
      | some values =>
        obtain ⟨_, _, -, h⟩ := CompileM.gives_bind.1 h
        exact hpure h
  | del =>
    obtain ⟨names, t, -, h⟩ := CompileM.gives_bind.1 h
    cases names with
    | nil =>
      obtain ⟨_, _, hreject, -⟩ := CompileM.gives_bind.1 h
      exact absurd hreject CompileM.gives_reject
    | cons n names =>
      simp only [List.isEmpty_cons, Bool.false_eq_true, if_false] at h
      exact hpure h
  | fn =>
    simp only [BindingForm.compile, compileFn] at h
    split at h
    · obtain ⟨_, _, -, h⟩ := CompileM.gives_bind.1 h
      obtain ⟨_, _, -, h⟩ := CompileM.gives_bind.1 h
      obtain ⟨_, _, -, h⟩ := CompileM.gives_bind.1 h
      split at h
      · obtain ⟨_, _, -, h⟩ := CompileM.gives_bind.1 h
        obtain ⟨_, _, -, h⟩ := CompileM.gives_bind.1 h
        exact hpure h
      · exact absurd h CompileM.gives_malformed
      · exact absurd h CompileM.gives_reject
    · exact absurd h CompileM.gives_reject

/-! ### Trees -/

/-- A closure literal whose closure is missing is a flaw of the word. -/
theorem missingClosure_mem {env : Env F} {w : Word} {pos : Pos} {literal : Option Closure}
    (hsole : w.sole? = some (.closure pos literal)) (hstep : compileLiteral? env w = none) :
    .missingClosure ∈ (surveyWord w).flaws := by
  obtain ⟨wordPos, sigil, parts⟩ := w
  unfold Word.sole? at hsole
  split at hsole
  · next hsigil hparts =>
    obtain rfl : parts = _ := hparts
    obtain rfl := Option.some.inj hsole
    cases literal with
    | none => exact List.mem_cons_self
    | some c => cases hstep
  · cases hsole

/-- Uses of a special form at one place of the scripts of two environments, with related arguments. -/
structure RelatedCall (A : Allowance) (R : {α : Type} → CompileM α → CompileM α → Prop)
    (e₁ e₂ : Env F) (call₁ call₂ : SpecialCall F) : Prop where
  source₁ : call₁.source = e₁.source
  source₂ : call₂.source = e₂.source
  pos : call₁.pos = call₂.pos
  argsPos : call₁.argsPos = call₂.argsPos
  args : List.Forall₂ (RelatedArgument A R) call₁.args call₂.args

/-- The special forms that are registered respect the relation: a special form whose arguments compile by
related steps compiles by related steps. -/
def SpecialsRelated (A : Allowance) (R : {α : Type} → CompileM α → CompileM α → Prop)
    (e₁ e₂ : Env F) : Prop :=
  ∀ n entry, e₁.registry.findSpecial n = some entry → ∀ call₁ call₂, RelatedCall A R e₁ e₂ call₁ call₂ →
    R (finishCommand (.special entry) call₁) (finishCommand (.special entry) call₂)

section

variable {A : Allowance} {e₁ e₂ : Env F}
variable {R : {α : Type} → CompileM α → CompileM α → Prop}

/-- The four forms that bind names respect every relation that what special forms have respects. -/
theorem Registry.CoreOnly.specialsRelated (hcore : e₁.registry.CoreOnly) (H : FormRelation A R) :
    SpecialsRelated A R e₁ e₂ := by
  intro n entry hn call₁ call₂ hcall
  obtain ⟨f, -, hf⟩ := hcore n entry hn
  change R (entry.body call₁ >>= _) (entry.body call₂ >>= _)
  rw [hf]
  refine H.sequence (H.bindingForm hcall.args hcall.pos f) fun op hgives => ?_
  obtain ⟨op, rfl⟩ := f.exists_op hgives
  exact H.pure _

/-- The rest of a form, once its command is known. -/
theorem finishCommand_related (H : FormRelation A R) (hspecials : SpecialsRelated A R e₁ e₂)
    {command : Command F}
    (hcommand : ∀ entry, command = .special entry → ∃ n, e₁.registry.findSpecial n = some entry)
    {call₁ call₂ : SpecialCall F} (hcall : RelatedCall A R e₁ e₂ call₁ call₂) :
    R (finishCommand command call₁) (finishCommand command call₂) := by
  cases command with
  | plain resolution =>
    unfold finishCommand
    rw [hcall.argsPos]
    exact H.bind (H.compileArguments hcall.args _) fun _ => H.pure _
  | special entry =>
    obtain ⟨n, hn⟩ := hcommand entry rfl
    exact hspecials n entry hn call₁ call₂ hcall

/-- A relation that compiling in two environments respects. -/
structure EnvRelation (A : Allowance) (R : {α : Type} → CompileM α → CompileM α → Prop)
    (e₁ e₂ : Env F) : Prop extends StepRelation A e₁.options e₂.options R where
  agree : e₁.Agree e₂
  specials : SpecialsRelated A R e₁ e₂

/-- If the special forms are the four that bind names, nothing more is asked of the relation. -/
theorem StepRelation.withCore (H : StepRelation A e₁.options e₂.options R) (he : e₁.Agree e₂)
    (hcore : e₁.registry.CoreOnly) : EnvRelation A R e₁ e₂ :=
  ⟨H, he, hcore.specialsRelated H.toFormRelation⟩

section

variable (H : EnvRelation A R e₁ e₂)
include H

theorem checkDescriptor_related (fd : Int) (pos : Pos) :
    R (checkDescriptor e₁.options fd pos) (checkDescriptor e₂.options fd pos) := by
  unfold checkDescriptor
  rw [H.agree.maxFd]
  exact related_ite _ (H.reject _ _) (H.pure ())

theorem checkRedirections_related : ∀ rs, (surveyRedirections rs).FlawsAmong A.flaw →
    R (checkRedirections e₁.options rs) (checkRedirections e₂.options rs)
  | [], _ => H.pure ()
  | ⟨pos, fd, target⟩ :: rs, h => by
    simp only [surveyRedirections, surveyRedirection, Survey.flawsAmong_append] at h
    have hnegative : fd < 0 → A.flaw (.negativeDescriptor fd) := fun hfd => by
      simpa [surveyDescriptor, hfd] using h.1.1
    refine related_dite (fun hfd => H.bind (H.malformed (hnegative hfd)) fun _ => ?_) fun _ => ?_
    all_goals
      exact H.bind (checkDescriptor_related H _ _) fun _ => checkRedirections_related rs h.2

theorem resolveCommand_related {n : Name} (hn : A.name (functionName n)) :
    R (resolveCommand e₁.registry n) (resolveCommand e₂.registry n) := by
  unfold resolveCommand
  rw [H.agree.registry]
  refine H.bind (H.resolve hn) fun t => related_ite _ (H.pure _) ?_
  cases e₂.registry.findSpecial n with
  | some entry => exact H.pure _
  | none => cases e₂.registry.findFunction n <;> exact H.pure _

theorem applySigil_related (pos : Pos) {sigil : Option UInt8} (hsigil : ∀ n ∈ sigilMention sigil, A.name n)
    (op : ValuesOp F) : R (applySigil e₁ pos sigil op) (applySigil e₂ pos sigil op) := by
  cases sigil with
  | none => exact H.pure op
  | some b =>
    have hb : A.name (functionName [b]) := hsigil _ (by simp [sigilMention])
    refine H.bind (H.count _ fun _ => ⟨rfl, rfl⟩) fun _ =>
      H.bind (resolveCommand_related H hb) fun command => ?_
    rw [H.agree.unsetPorts]
    cases command with
    | special entry => exact H.reject _ _
    | plain resolution => exact H.pure _

theorem commandHead_related (pos : Pos) {head : Primary} (hhead : ∀ n ∈ mentionsInPrimary head, A.name n)
    {x y : CompileM (ValuesOp F)} (hx : R x y) :
    R (commandHead e₁ pos head x) (commandHead e₂ pos head y) := by
  cases head with
  | string _ text =>
    have htext : A.name (functionName text) := hhead _ (by simp [mentionsInPrimary])
    exact H.bind hx fun op => H.bind (resolveCommand_related H htext) fun _ => H.pure _
  | closure _ _ => exact H.bind hx fun op => H.pure _
  | _ => exact H.reject _ _

end

mutual

theorem compilePipelines_respects (H : EnvRelation A R e₁ e₂) :
    ∀ ps, A.Allows (surveyPipelines ps) (mentionsInPipelines ps) →
    R (compilePipelines e₁ ps) (compilePipelines e₂ ps)
  | [], _ => by
    simp only [compilePipelines]
    exact H.pure []
  | p :: ps, h => by
    simp only [surveyPipelines, mentionsInPipelines, Allowance.allows_append] at h
    simp only [compilePipelines]
    exact H.bind (compilePipeline_respects H p h.1) fun _ =>
      H.bind (compilePipelines_respects H ps h.2) fun _ => H.pure _

theorem compileClosure_respects (H : EnvRelation A R e₁ e₂) :
    ∀ c, A.Allows (surveyClosure c) (mentionsInClosure c) →
    R (compileClosure e₁ c) (compileClosure e₂ c)
  | ⟨pos, params, ⟨_, pipelines⟩⟩, h => by
    simp only [surveyClosure, mentionsInClosure, Allowance.allows_under, Allowance.allows_node] at h
    simp only [compileClosure]
    exact H.closure pos params (compilePipelines_respects H pipelines h)

theorem forwardingClosure_respects (H : EnvRelation A R e₁ e₂) :
    ∀ c, A.Allows (surveyClosure c) (mentionsInClosure c) →
    R (forwarding (compileClosure e₁ c)) (forwarding (compileClosure e₂ c))
  | ⟨pos, params, ⟨_, pipelines⟩⟩, h => by
    simp only [surveyClosure, mentionsInClosure, Allowance.allows_under, Allowance.allows_node] at h
    simp only [compileClosure]
    exact H.forwarding pos params (compilePipelines_respects H pipelines h)

theorem compilePipeline_respects (H : EnvRelation A R e₁ e₂) :
    ∀ p, A.Allows (surveyPipeline p) (mentionsInPipeline p) →
    R (compilePipeline e₁ p) (compilePipeline e₂ p)
  | ⟨pos, forms⟩, h => by
    simp only [surveyPipeline, mentionsInPipeline, Allowance.allows_node] at h
    simp only [compilePipeline]
    exact H.nested pos (H.bind (compileForms_respects H forms h) fun _ => H.pure _)

theorem compileForms_respects (H : EnvRelation A R e₁ e₂) :
    ∀ fs, A.Allows (surveyForms fs) (mentionsInForms fs) →
    R (compileForms e₁ fs) (compileForms e₂ fs)
  | [], _ => by
    simp only [compileForms]
    exact H.pure []
  | f :: fs, h => by
    simp only [surveyForms, mentionsInForms, Allowance.allows_append] at h
    simp only [compileForms]
    exact H.bind (compileForm_respects H f h.1) fun _ =>
      H.bind (compileForms_respects H fs h.2) fun _ => H.pure _

theorem compileForm_respects (H : EnvRelation A R e₁ e₂) :
    ∀ f, A.Allows (surveyForm f) (mentionsInForm f) →
    R (compileForm e₁ f) (compileForm e₂ f)
  | ⟨pos, command, argsPos, args, redirections⟩, h => by
    simp only [surveyForm, mentionsInForm, Allowance.allows_node, Allowance.allows_append] at h
    obtain ⟨hcommand, hredirections, hargs⟩ := h
    simp only [compileForm, H.agree.unsetPorts]
    refine H.nested pos (H.bind (H.count _ fun _ => ⟨rfl, rfl⟩) fun _ => ?_)
    refine H.sequence (compileCommand_respects H command hcommand) fun (op, command) hgives => ?_
    refine H.bind (checkRedirections_related H redirections hredirections.flaws) fun _ => ?_
    refine H.bind (compileRedirections_respects H redirections hredirections _) fun ports => ?_
    have hentry : ∀ entry, command = .special entry → ∃ n, e₁.registry.findSpecial n = some entry := by
      rintro entry rfl
      exact findSpecial_of_compileCommand hgives
    have hcall : RelatedCall A R e₁ e₂ ⟨e₁.source, pos, argsPos, compileArgs e₁ args⟩
        ⟨e₂.source, pos, argsPos, compileArgs e₂ args⟩ :=
      ⟨rfl, rfl, rfl, rfl, compileArgs_respects H args hargs⟩
    exact H.bind (finishCommand_related H.toFormRelation H.specials hentry hcall) fun _ => H.pure _

theorem compileCommand_respects (H : EnvRelation A R e₁ e₂) :
    ∀ w, A.Allows (surveyCommand w) (mentionsInWord? w) →
    R (compileCommand e₁ w) (compileCommand e₂ w)
  | none, h => by
    simp only [surveyCommand] at h
    exact H.malformed h.flaw
  | some ⟨pos, none, [⟨_, head, none⟩]⟩, h => by
    simp only [surveyCommand, surveyWord, surveyParts, mentionsInWord?, mentionsInWord,
      mentionsInParts, Allowance.allows_node, Allowance.allows_append] at h
    obtain ⟨-, hhead, -⟩ := h
    simp only [surveyPart, mentionsInPart, mentionsInWord?, List.append_nil] at hhead
    simp only [compileCommand]
    exact commandHead_related H pos hhead.names (compilePrimary_respects H head hhead)
  | some ⟨_, none, []⟩, _ | some ⟨_, none, ⟨_, _, some _⟩ :: _⟩, _
  | some ⟨_, none, ⟨_, _, none⟩ :: _ :: _⟩, _ | some ⟨_, some _, _⟩, _ => H.reject _ _

theorem compileArgs_respects (H : EnvRelation A R e₁ e₂) : ∀ ws,
    A.Allows (surveyWords [.missingWord, .missingArgument] ws) (mentionsInWords ws) →
    List.Forall₂ (RelatedArgument A R) (compileArgs e₁ ws) (compileArgs e₂ ws)
  | [], _ => by
    simp only [compileArgs]
    exact .nil
  | none :: ws, h => by
    simp only [surveyWords, mentionsInWords, mentionsInWord?, Allowance.allows_append] at h
    have hmissing := h.1.flaws
    simp only [compileArgs, compileArg]
    refine .cons ⟨rfl, H.malformed (hmissing _ (by simp)), .none, fun _ => hmissing _ (by simp), ?_, ?_⟩
      (compileArgs_respects H ws h.2)
    · intro w pos literal hword
      cases hword
    · intro w n hword
      cases hword
  | some w :: ws, h => by
    simp only [surveyWords, mentionsInWords, mentionsInWord?, Allowance.allows_append] at h
    simp only [compileArgs, compileArg]
    refine .cons ⟨rfl, compileWord_respects H w h.1, compileLiteral_respects H w h.1, ?_, ?_, ?_⟩
      (compileArgs_respects H ws h.2)
    · intro hword
      cases hword
    · rintro _ pos literal ⟨⟩ hsole hstep
      exact h.1.flaws _ (missingClosure_mem hsole hstep)
    · rintro _ n ⟨⟩ hplain
      exact h.1.names n (plain_mem_mentions hplain)

theorem compileLiteral_respects (H : EnvRelation A R e₁ e₂) :
    ∀ w, A.Allows (surveyWord w) (mentionsInWord w) →
    Option.Rel (fun x y => R x y ∧ R (forwarding x) (forwarding y)) (compileLiteral? e₁ w)
      (compileLiteral? e₂ w)
  | ⟨_, _, ⟨_, .closure _ (some c), index⟩ :: _⟩, h => by
    simp only [surveyWord, surveyParts, mentionsInWord, mentionsInParts, Allowance.allows_node,
      Allowance.allows_append] at h
    have hpart := h.2.1
    have hc : A.Allows (surveyClosure c) (mentionsInClosure c) := by
      cases index with
      | none =>
        simpa only [surveyPart, surveyPrimary, mentionsInPart, mentionsInPrimary, mentionsInWord?,
          List.append_nil, Allowance.allows_node] using hpart
      | some index =>
        simp only [surveyPart, surveyPrimary, mentionsInPart, mentionsInPrimary, Allowance.allows_append,
          Allowance.allows_node] at hpart
        exact hpart.1
    exact .some ⟨compileClosure_respects H c hc, forwardingClosure_respects H c hc⟩
  | ⟨_, _, []⟩, _ | ⟨_, _, ⟨_, .closure _ none, _⟩ :: _⟩, _ | ⟨_, _, ⟨_, .string .., _⟩ :: _⟩, _
  | ⟨_, _, ⟨_, .variable .., _⟩ :: _⟩, _ | ⟨_, _, ⟨_, .table .., _⟩ :: _⟩, _
  | ⟨_, _, ⟨_, .list .., _⟩ :: _⟩, _ | ⟨_, _, ⟨_, .chanCapture .., _⟩ :: _⟩, _
  | ⟨_, _, ⟨_, .statusCapture .., _⟩ :: _⟩, _ | ⟨_, _, ⟨_, .unknown _, _⟩ :: _⟩, _ => by
    simp only [compileLiteral?]
    exact .none

theorem compileRedirections_respects (H : EnvRelation A R e₁ e₂) : ∀ rs,
    A.Allows (surveyRedirections rs) (mentionsInRedirections rs) →
    ∀ ports, R (compileRedirections e₁ rs ports) (compileRedirections e₂ rs ports)
  | [], _, _ => by
    simp only [compileRedirections]
    exact H.pure _
  | r :: rs, h, ports => by
    simp only [surveyRedirections, mentionsInRedirections, Allowance.allows_append] at h
    simp only [compileRedirections]
    exact H.bind (compileRedirection_respects H r h.1) fun _ => compileRedirections_respects H rs h.2 _

theorem compileRedirection_respects (H : EnvRelation A R e₁ e₂) :
    ∀ r, A.Allows (surveyRedirection r) (mentionsInRedirection r) →
    R (compileRedirection e₁ r) (compileRedirection e₂ r)
  | ⟨pos, _, .close⟩, _ => H.pure _
  | ⟨pos, _, .dup source⟩, h => by
    simp only [surveyRedirection, surveyTarget] at h
    have hnegative : source < 0 → A.flaw (.negativeSource source) := fun hsource => by
      simpa [surveySource, hsource] using (Survey.flawsAmong_append.1 h.flaws).2
    simp only [compileRedirection]
    refine related_dite (fun hsource => H.bind (H.malformed (hnegative hsource)) fun _ => ?_)
      fun _ => ?_
    all_goals exact H.bind (checkDescriptor_related H source pos) fun _ => H.pure _
  | ⟨_, _, .file _ none⟩, h => by
    simp only [surveyRedirection, surveyTarget] at h
    exact H.malformed (Survey.flawsAmong_flaw.1 (Survey.flawsAmong_append.1 h.flaws).2)
  | ⟨pos, _, .file flags (some filename)⟩, h => by
    simp only [surveyRedirection, surveyTarget, mentionsInRedirection, mentionsInTarget,
      mentionsInWord?] at h
    have hfilename : A.Allows (surveyWord filename) (mentionsInWord filename) :=
      ⟨(Survey.flawsAmong_append.1 h.flaws).2, h.names⟩
    simp only [compileRedirection, H.agree.fileMode]
    exact H.bind (compileWord_respects H filename hfilename) fun _ => H.pure _
  | ⟨_, _, .unknown⟩, h => by
    simp only [surveyRedirection, surveyTarget] at h
    exact H.malformed (Survey.flawsAmong_flaw.1 (Survey.flawsAmong_append.1 h.flaws).2)

theorem compileWords_respects (H : EnvRelation A R e₁ e₂) :
    ∀ ws, A.Allows (surveyWords [.missingWord] ws) (mentionsInWords ws) →
    R (compileWords e₁ ws) (compileWords e₂ ws)
  | [], _ => by
    simp only [compileWords]
    exact H.pure []
  | none :: _, h => by
    simp only [surveyWords, mentionsInWords, mentionsInWord?, Allowance.allows_append] at h
    simp only [compileWords]
    exact H.malformed (h.1.flaws _ (by simp))
  | some w :: ws, h => by
    simp only [surveyWords, mentionsInWords, mentionsInWord?, Allowance.allows_append] at h
    simp only [compileWords]
    exact H.bind (compileWord_respects H w h.1) fun _ =>
      H.bind (compileWords_respects H ws h.2) fun _ => H.pure _

theorem compileWord_respects (H : EnvRelation A R e₁ e₂) :
    ∀ w, A.Allows (surveyWord w) (mentionsInWord w) →
    R (compileWord e₁ w) (compileWord e₂ w)
  | ⟨pos, sigil, parts⟩, h => by
    simp only [surveyWord, mentionsInWord, Allowance.allows_node, Allowance.allows_append] at h
    have hempty : parts.isEmpty → A.flaw .emptyWord := fun hparts => by
      simpa [hparts] using h.1.flaws
    simp only [compileWord]
    refine H.nested pos (related_dite (fun hparts => H.bind (H.malformed (hempty hparts)) fun _ => ?_)
      fun _ => ?_)
    all_goals
      exact H.bind (compileParts_respects H parts h.2) fun _ => applySigil_related H pos h.1.names _

theorem compileParts_respects (H : EnvRelation A R e₁ e₂) :
    ∀ ps, A.Allows (surveyParts ps) (mentionsInParts ps) →
    R (compileParts e₁ ps) (compileParts e₂ ps)
  | [], _ => by
    simp only [compileParts]
    exact H.pure []
  | p :: ps, h => by
    simp only [surveyParts, mentionsInParts, Allowance.allows_append] at h
    simp only [compileParts]
    exact H.bind (compilePart_respects H p h.1) fun _ =>
      H.bind (compileParts_respects H ps h.2) fun _ => H.pure _

theorem compilePart_respects (H : EnvRelation A R e₁ e₂) :
    ∀ p, A.Allows (surveyPart p) (mentionsInPart p) →
    R (compilePart e₁ p) (compilePart e₂ p)
  | ⟨_, left, none⟩, h => by
    simp only [surveyPart, mentionsInPart, mentionsInWord?, List.append_nil] at h
    simp only [compilePart]
    exact compilePrimary_respects H left h
  | ⟨_, left, some index⟩, h => by
    simp only [surveyPart, mentionsInPart, mentionsInWord?, Allowance.allows_append] at h
    simp only [compilePart]
    refine H.bind (compilePrimary_respects H left h.1) fun _ => ?_
    exact H.bind (compileWord_respects H index h.2) fun _ => H.pure _

theorem compilePairs_respects (H : EnvRelation A R e₁ e₂) :
    ∀ ps, A.Allows (surveyPairs ps) (mentionsInPairs ps) →
    R (compilePairs e₁ ps) (compilePairs e₂ ps)
  | [], _ => by
    simp only [compilePairs]
    exact H.pure []
  | ⟨some key, some value⟩ :: rest, h => by
    simp only [surveyPairs, mentionsInPairs, mentionsInWord?, Allowance.allows_append] at h
    simp only [compilePairs]
    refine H.bind (compileWord_respects H key h.1) fun _ => ?_
    refine H.bind (compileWord_respects H value h.2.1) fun _ => ?_
    exact H.bind (compilePairs_respects H rest h.2.2) fun _ => H.pure _
  | ⟨none, _⟩ :: _, h => by
    simp only [surveyPairs] at h
    exact H.malformed (Survey.flawsAmong_flaw.1 (Survey.flawsAmong_append.1 h.flaws).1)
  | ⟨some _, none⟩ :: _, h => by
    simp only [surveyPairs] at h
    exact H.malformed (Survey.flawsAmong_flaw.1 (Survey.flawsAmong_append.1 h.flaws).1)

theorem compilePrimary_respects (H : EnvRelation A R e₁ e₂) :
    ∀ p, A.Allows (surveyPrimary p) (mentionsInPrimary p) →
    R (compilePrimary e₁ p) (compilePrimary e₂ p)
  | .string pos text, _ => H.nested pos (H.pure _)
  | .variable pos name, h => by
    have hname : A.name name := h.names name (by simp [mentionsInPrimary])
    simp only [compilePrimary]
    refine H.nested pos (H.bind (H.mustResolve hname pos) fun _ => ?_)
    exact H.bind (H.count _ fun _ => ⟨rfl, rfl⟩) fun _ => H.pure _
  | .table pos items pairs, h => by
    simp only [surveyPrimary, mentionsInPrimary, Allowance.allows_node, Allowance.allows_append] at h
    simp only [compilePrimary]
    refine H.nested pos (H.bind (compileWords_respects H items h.1) fun itemOps => ?_)
    refine H.bind (compilePairs_respects H pairs h.2) fun pairOps => ?_
    -- there are as many keys as values, so the table is built
    simp only [ValuesOp.table?, List.length_map, if_true]
    exact H.pure _
  | .closure pos none, h => by
    simp only [surveyPrimary, Allowance.allows_node] at h
    exact H.nested pos (H.malformed h.flaw)
  | .closure pos (some c), h => by
    simp only [surveyPrimary, mentionsInPrimary, Allowance.allows_node] at h
    simp only [compilePrimary]
    exact H.nested pos (forwardingClosure_respects H c h)
  | .list pos itemsPos items, h => by
    simp only [surveyPrimary, mentionsInPrimary, Allowance.allows_node] at h
    simp only [compilePrimary]
    exact H.nested pos (H.bind (compileWords_respects H items h) fun _ => H.pure _)
  | .chanCapture pos none, h => by
    simp only [surveyPrimary, Allowance.allows_node] at h
    exact H.nested pos (H.malformed h.flaw)
  | .chanCapture pos (some p), h => by
    simp only [surveyPrimary, mentionsInPrimary, Allowance.allows_node] at h
    simp only [compilePrimary]
    exact H.nested pos (H.bind (compilePipeline_respects H p h) fun _ => H.pure _)
  | .statusCapture pos none, h => by
    simp only [surveyPrimary, Allowance.allows_node] at h
    exact H.nested pos (H.malformed h.flaw)
  | .statusCapture pos (some p), h => by
    simp only [surveyPrimary, mentionsInPrimary, Allowance.allows_node] at h
    simp only [compilePrimary]
    exact H.nested pos (compilePipeline_respects H p h)
  | .unknown pos, h => by
    simp only [surveyPrimary, Allowance.allows_node] at h
    exact H.nested pos (H.malformed h.flaw)

end

end

/-! ### The operations of a compilation unit -/

/-- A tree that a compilation unit compiles. The captures of a closure literal are passed on to the
code around it only where it is compiled as a primary. -/
inductive Node
  | chunk (c : Chunk)
  | closure (c : Closure)
  | closurePrimary (c : Closure)
  | pipeline (p : Pipeline)
  | form (f : Form)
  | redirection (r : Redirection)
  | words (ws : List (Option Word)) (pos : Pos)
  | word (w : Word)
  | part (p : Part)
  | primary (p : Primary)

/-- What a tree compiles to. -/
inductive NodeOp (F : Type)
  | values (op : ValuesOp F)
  | closure (c : CompiledClosure F)
  | form (op : FormOp F)
  | port (op : PortOp F)

/-- Compiles a tree. -/
def compileNode (env : Env F) : Node → CompileM (NodeOp F)
  | .chunk c => do return .values (← compileChunk env c)
  | .closure c => do return .closure (← compileClosure env c)
  | .closurePrimary c => do return .values (← forwarding (compileClosure env c))
  | .pipeline p => do return .values (← compilePipeline env p)
  | .form f => do return .form (← compileForm env f)
  | .redirection r => do return .port (← compileRedirection env r)
  | .words ws pos => do return .values (← compileSpaced env ws pos)
  | .word w => do return .values (← compileWord env w)
  | .part p => do return .values (← compilePart env p)
  | .primary p => do return .values (← compilePrimary env p)

/-- An operation of a compilation unit. -/
inductive UnitStep
  | bind (n : Name) (t : Ty)
  | unbind (n : Name)
  | hasLocal (n : Name)
  | resolve (n : Name)
  | mustResolve (n : Name) (pos : Pos)
  | resolveCommand (n : Name)
  | compile (node : Node)

/-- Does an operation for what it does to the unit. -/
def UnitStep.step (env : Env F) : UnitStep → CompileM Unit
  | .bind n t => CompileM.bind n t
  | .unbind n => CompileM.unbind n
  | .hasLocal n => discard (CompileM.hasLocal n)
  | .resolve n => discard (CompileM.resolve n)
  | .mustResolve n pos => discard (CompileM.mustResolve n pos)
  | .resolveCommand n => discard (ShellOps.resolveCommand env.registry n)
  | .compile node => discard (compileNode env node)

/-- The state of a unit after some operations; one that fails leaves it as it is at the failure,
and the next goes on from there. -/
def UnitStep.run (env : Env F) (steps : List UnitStep) (s : CompileState) : CompileState :=
  steps.foldl (fun s u => ((u.step env).outcome s).2) s

/-- What a tree holds. -/
def Node.survey : Node → Survey
  | .chunk c => surveyPipelines c.pipelines
  | .closure c | .closurePrimary c => surveyClosure c
  | .pipeline p => surveyPipeline p
  | .form f => surveyForm f
  | .redirection r => surveyRedirection r
  | .words ws _ => surveyWords [.missingWord] ws
  | .word w => surveyWord w
  | .part p => surveyPart p
  | .primary p => surveyPrimary p

/-- The names that a tree mentions. -/
def Node.mentions : Node → List Name
  | .chunk c => mentionsInPipelines c.pipelines
  | .closure c | .closurePrimary c => mentionsInClosure c
  | .pipeline p => mentionsInPipeline p
  | .form f => mentionsInForm f
  | .redirection r => mentionsInRedirection r
  | .words ws _ => mentionsInWords ws
  | .word w => mentionsInWord w
  | .part p => mentionsInPart p
  | .primary p => mentionsInPrimary p

section

variable {A : Allowance} {e₁ e₂ : Env F}
variable {R : {α : Type} → CompileM α → CompileM α → Prop}

theorem compilePipelines_related (H : StepRelation A e₁.options e₂.options R) (he : e₁.Agree e₂)
    (hcore : e₁.registry.CoreOnly) (ps : List Pipeline)
    (h : A.Allows (surveyPipelines ps) (mentionsInPipelines ps)) :
    R (compilePipelines e₁ ps) (compilePipelines e₂ ps) :=
  compilePipelines_respects (H.withCore he hcore) ps h

/-- **Every tree.** A relation that the steps of a compilation respect holds between the two
compilations of any tree that is allowed. -/
theorem compileNode_related (H : StepRelation A e₁.options e₂.options R) (he : e₁.Agree e₂)
    (hcore : e₁.registry.CoreOnly) (node : Node) (h : A.Allows node.survey node.mentions) :
    R (compileNode e₁ node) (compileNode e₂ node) := by
  have henv : EnvRelation A R e₁ e₂ := H.withCore he hcore
  cases node with
  | chunk c =>
    obtain ⟨pos, pipelines⟩ := c
    have hps : R (compilePipelines e₁ pipelines) (compilePipelines e₂ pipelines) :=
      compilePipelines_related H he hcore pipelines h
    simp only [compileNode, compileChunk]
    exact H.bind (H.bind hps fun _ => H.pure _) fun _ => H.pure _
  | closure c => exact H.bind (compileClosure_respects henv c h) fun _ => H.pure _
  | closurePrimary c => exact H.bind (forwardingClosure_respects henv c h) fun _ => H.pure _
  | pipeline p => exact H.bind (compilePipeline_respects henv p h) fun _ => H.pure _
  | form f => exact H.bind (compileForm_respects henv f h) fun _ => H.pure _
  | redirection r => exact H.bind (compileRedirection_respects henv r h) fun _ => H.pure _
  | words ws pos =>
    have hws : R (compileWords e₁ ws) (compileWords e₂ ws) := compileWords_respects henv ws h
    exact H.bind (H.bind hws fun _ => H.pure _) fun _ => H.pure _
  | word w => exact H.bind (compileWord_respects henv w h) fun _ => H.pure _
  | part p => exact H.bind (compilePart_respects henv p h) fun _ => H.pure _
  | primary p => exact H.bind (compilePrimary_respects henv p h) fun _ => H.pure _

/-- Every operation of a unit. -/
theorem UnitStep.step_related (H : StepRelation .all e₁.options e₂.options R)
    (he : e₁.Agree e₂) (hcore : e₁.registry.CoreOnly) (u : UnitStep) : R (u.step e₁) (u.step e₂) := by
  have hdiscard {α : Type} {x y : CompileM α} (h : R x y) : R (discard x) (discard y) :=
    H.bind h fun _ => H.pure ()
  cases u with
  | bind n t => exact H.bindName n t
  | unbind n => exact H.unbind n
  | hasLocal n => exact hdiscard (H.hasLocal trivial)
  | resolve n => exact hdiscard (H.resolve trivial)
  | mustResolve n pos => exact hdiscard (H.mustResolve trivial pos)
  | resolveCommand n => exact hdiscard (resolveCommand_related (H.withCore he hcore) trivial)
  | compile node => exact hdiscard (compileNode_related H he hcore node (Allowance.allows_all _ _))

end

end ShellOps
