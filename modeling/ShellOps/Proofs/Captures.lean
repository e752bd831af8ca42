/-
# Capture sets are exact

The captures of a closure literal are the names that its code looks up, at any depth of nesting, and
finds below the frame of the closure, each with the kind found there. So a name that an inner
closure takes from far outside is captured by every closure in between, and one that is a local of
a closure in between goes no further out.

A step `Follows` a walk if, whenever it succeeds, the walk accounts for what it did with names: the
frames it leaves are those of the walk, and what it adds to the captures is what the look-ups of the
walk find below the innermost frame. Every tree is compiled by a step that follows its walk. The
captures of a closure pass on to the code around it through a filter (the names bound there stay
behind); in terms of walks this is the step from one level to the next (`firstBelow_cons`).
-/
import Mathlib.Data.List.Forall2
import ShellOps.Proofs.Lookups

namespace ShellOps

variable {α β F : Type} {s t s' : CompileState} {v w : Walk}

/-- The walk accounts for the change from `s` to `s'`: for the frames, and for what is captured. -/
structure Walk.Accounts (w : Walk) (s s' : CompileState) : Prop where
  scopes : s'.scopes = (w.trail s.scopes).scopes
  captures : ∀ n : Name, s'.captures[n]? =
    s.captures[n]?.or (firstBelow (w.trail s.scopes).lookups n s.scopes.outer.length)

theorem Walk.accounts_stay (s : CompileState) : Walk.stay.Accounts s s :=
  ⟨rfl, fun n => by simp [Walk.stay, firstBelow]⟩

theorem Walk.Accounts.andThen (h₁ : v.Accounts s t) (h₂ : w.Accounts t s') :
    (v.andThen w).Accounts s s' := by
  refine ⟨?_, fun n => ?_⟩
  · rw [h₂.scopes, h₁.scopes, Walk.andThen]
  · have houter : t.scopes.outer = s.scopes.outer := by rw [h₁.scopes, v.outer]
    rw [h₂.captures n, h₁.captures n, houter, Option.or_assoc, ← firstBelow_append, h₁.scopes,
      Walk.andThen]

/-- Whenever the step succeeds, the walk accounts for what it did. -/
def Follows (x : CompileM α) (w : Walk) : Prop := ∀ ⦃s a s'⦄, x.Gives s a s' → w.Accounts s s'

/-! ### Steps -/

theorem follows_ite {x y : CompileM α} (c : Prop) [Decidable c] (hx : Follows x w)
    (hy : Follows y w) : Follows (if c then x else y) w := by
  split
  · exact hx
  · exact hy

namespace Follows

theorem throw (e : Failure) (w : Walk) : Follows (throw e : CompileM α) w :=
  fun _ _ _ h => absurd h CompileM.gives_throw

theorem reject (pos : Pos) (cause : Rejection) (w : Walk) :
    Follows (CompileM.reject pos cause : CompileM α) w := throw _ w

theorem malformed (cause : Malformed) (w : Walk) :
    Follows (CompileM.malformed cause : CompileM α) w := throw _ w

theorem pure (a : α) : Follows (pure a) .stay := by
  intro s b s' h
  obtain ⟨-, rfl⟩ := CompileM.gives_pure.1 h
  exact Walk.accounts_stay s'

theorem sequence {x : CompileM α} {f : α → CompileM β} (hx : Follows x v)
    (hf : ∀ a, x.CanGive a → Follows (f a) w) : Follows (x >>= f) (v.andThen w) := by
  intro s b s' h
  obtain ⟨a, t, ha, hb⟩ := CompileM.gives_bind.1 h
  exact (hx ha).andThen (hf a ⟨s, t, ha⟩ hb)

theorem bind {x : CompileM α} {f : α → CompileM β} (hx : Follows x v)
    (hf : ∀ a, Follows (f a) w) : Follows (x >>= f) (v.andThen w) :=
  sequence hx fun a _ => hf a

/-- A step that does nothing with names, and then another. -/
theorem after_quiet {x : CompileM α} {f : α → CompileM β} (hx : Follows x .stay)
    (hf : ∀ a, Follows (f a) w) : Follows (x >>= f) w := by
  rw [← w.stay_andThen]
  exact bind hx hf

/-- A step, and then another that does nothing with names. -/
theorem then_quiet {x : CompileM α} {f : α → CompileM β} (hx : Follows x v)
    (hf : ∀ a, Follows (f a) .stay) : Follows (x >>= f) v := by
  rw [← v.andThen_stay]
  exact bind hx hf

theorem map {x : CompileM α} (hx : Follows x v) (f : α → β) :
    Follows (x >>= fun a => Pure.pure (f a)) v := hx.then_quiet fun _ => pure _

theorem count (f : Stats → Stats) : Follows (CompileM.count f) .stay := by
  intro s u s' h
  obtain rfl := CompileM.gives_count.1 h
  exact ⟨rfl, (Walk.accounts_stay s).captures⟩

theorem bindName (n : Name) (t : Ty) : Follows (CompileM.bind n t) (.bind n t) := by
  intro s u s' h
  obtain rfl := CompileM.gives_bindName.1 h
  exact ⟨rfl, (Walk.accounts_stay s).captures⟩

theorem unbind (n : Name) : Follows (CompileM.unbind n) (.unbind n) := by
  intro s u s' h
  obtain rfl := CompileM.gives_unbind.1 h
  exact ⟨rfl, (Walk.accounts_stay s).captures⟩

theorem hasLocal (n : Name) : Follows (CompileM.hasLocal n) .stay := by
  intro s b s' h
  obtain ⟨-, rfl⟩ := CompileM.gives_hasLocal.1 h
  exact Walk.accounts_stay s'

theorem resolve (n : Name) : Follows (CompileM.resolve n) (.look n) := by
  intro s u s' h
  obtain ⟨-, rfl⟩ := CompileM.gives_resolve.1 h
  refine ⟨rfl, fun m => ?_⟩
  simp only [ScopeStack.getElem?_resolve, Walk.look, firstBelow, List.findSome?_cons,
    List.findSome?_nil, Lookup.typeBelow]
  by_cases hn : n = m
  · subst hn
    simp only [if_pos]
    cases typeBelow s.scopes.frames n s.scopes.outer.length <;> rfl
  · simp [hn]

theorem mustResolve (n : Name) (pos : Pos) : Follows (CompileM.mustResolve n pos) (.look n) :=
  fun _ _ _ h => resolve n (CompileM.gives_mustResolve.1 h)

theorem resolveCommand (r : Registry F) (n : Name) :
    Follows (resolveCommand r n) (.look (functionName n)) := by
  rw [resolveCommand_eq]
  exact (resolve _).map _

theorem nested {x : CompileM α} (o : Options) (pos : Pos) (hx : Follows x w) :
    Follows (CompileM.nested o pos x) w := by
  intro s a s' h
  obtain ⟨-, t, ht, rfl⟩ := CompileM.gives_nested.1 h
  have h' := hx ht
  exact ⟨h'.scopes, h'.captures⟩

theorem forM {b : β → CompileM Unit} {v : β → Walk} (h : ∀ x, Follows (b x) (v x)) :
    ∀ xs : List β, Follows (xs.forM b) (.all (xs.map v))
  | [] => pure ()
  | x :: xs => bind (h x) fun _ => forM h xs

/-! ### Closures -/

/-- A closure literal leaves frames and captures alone; its own captures are what the look-ups of
its code find below its frame. -/
theorem closure {o : Options} {pos : Pos} {params : List Name}
    {body : CompileM (List (ValuesOp F))} (hbody : Follows body w) {c : CompiledClosure F}
    (h : (closureAround o pos params body).Gives s c s') :
    s'.scopes = s.scopes ∧ s'.captures = s.captures ∧
      (∃ pipelines, c.op = .closureOf params pipelines c.captures pos) ∧
      ∀ n : Name, c.captures[n]? =
        firstBelow ((Walk.within params w).trail s.scopes).lookups n s.scopes.depth := by
  obtain ⟨pipelines, t, scopes, hb, hpop, rfl, rfl⟩ := gives_closureAround h
  have haccounts := hbody hb
  have houter : t.scopes.outer = s.scopes.frames := by
    rw [haccounts.scopes, w.outer]
    exact s.deeper.outer_entered params
  have hscopes : scopes = s.scopes := by
    rw [ScopeStack.pop?_of_outer houter] at hpop
    exact (Option.some.inj hpop).symm
  refine ⟨hscopes, rfl, ⟨pipelines, rfl⟩, fun n => ?_⟩
  have hcaptures := haccounts.captures n
  rw [CompileState.captures_entered, CompileState.outer_entered] at hcaptures
  rw [hcaptures]
  simp only [Std.ExtTreeMap.getElem?_empty, Option.none_or]
  rfl

/-- What a closure literal passes on to the code around it is what the look-ups of its code find
below the frame of that code. -/
theorem forwarding {body : CompileM (List (ValuesOp F))} (o : Options) (pos : Pos)
    (params : List Name) (hbody : Follows body w) :
    Follows (forwarding (closureAround o pos params body)) (.within params w) := by
  intro s op s' h
  obtain ⟨c, t, hc, -, rfl⟩ := gives_forwarding.1 h
  obtain ⟨hscopes, hcaptures, -, hexact⟩ := hbody.closure hc
  refine ⟨hscopes, fun n => ?_⟩
  have hlevel : firstBelow ((Walk.within params w).trail s.scopes).lookups n s.scopes.outer.length =
      if s.scopes.innermost[n]?.isSome then none
      else firstBelow ((Walk.within params w).trail s.scopes).lookups n s.scopes.depth :=
    firstBelow_cons (w.frames_closure params s.scopes) n
  simp only [CaptureSet.getElem?_forward, hscopes, hcaptures, ScopeStack.hasLocal_eq, hexact n,
    hlevel]

end Follows

/-! ### Special forms -/

/-- Reading the names of an assignment gives the names before its `=`, and the place of that if it has
one; without one it reads all the words. -/
theorem canGive_scanWords {form : BindingForm} {check : Name → Pos → CompileM Unit} :
    ∀ {ws : List (Option Word)} {names : List Name} {place : Option Pos},
      (scanWords form check ws).CanGive (names, place) →
        names = leadingNames ws ∧ place.isSome = ws.any isEquals ∧
          (place = none → names.length = ws.length)
  | [], names, place, ⟨s, s', h⟩ => by
    obtain ⟨⟨rfl, rfl⟩, -⟩ : (names = [] ∧ place = none) ∧ s' = s := by simpa [scanWords] using h
    simp [leadingNames]
  | none :: _, _, _, ⟨_, _, h⟩ => absurd h CompileM.gives_malformed
  | some w :: ws, names, place, ⟨s, s', h⟩ => by
    by_cases hw : w.plain? = some equals
    · obtain ⟨⟨rfl, rfl⟩, -⟩ : (names = [] ∧ place = some w.pos) ∧ s' = s := by
        simpa [scanWords, hw] using h
      simp [leadingNames, isEquals, hw]
    · simp only [scanWords, if_neg hw, CompileM.gives_bind, CompileM.gives_pure, Prod.mk.injEq] at h
      obtain ⟨n, t, hn, -, u, -, ⟨names', place'⟩, u', hrest, ⟨rfl, rfl⟩, rfl⟩ := h
      obtain ⟨rfl, hplace, hlength⟩ := canGive_scanWords ⟨_, _, hrest⟩
      obtain ⟨n', hplain, -, -, hmust⟩ | hmust := mustName_eq form w
      · rw [hmust] at hn
        obtain ⟨rfl, -⟩ := CompileM.gives_pure.1 hn
        have hequals : isEquals (some w) = false := by simp [isEquals, hw]
        refine ⟨?_, ?_, fun hnone => by simp [hlength hnone]⟩
        · simp [leadingNames, hequals, hplain, argName]
        · rw [List.any_cons, hequals, hplace, Bool.false_or]
      · rw [hmust] at hn
        exact absurd hn CompileM.gives_reject

theorem follows_scanWords {form : BindingForm} {check : Name → Pos → CompileM Unit}
    {v : Name → Walk} (hcheck : ∀ n pos, Follows (check n pos) (v n)) :
    ∀ ws, Follows (scanWords form check ws) (.all ((leadingNames ws).map v))
  | [] => .pure _
  | none :: _ => .malformed _ _
  | some w :: ws => by
    by_cases hw : w.plain? = some equals
    · rw [scanWords, if_pos hw, show leadingNames (some w :: ws) = [] by
        simp [leadingNames, isEquals, hw]]
      exact .pure _
    · rw [scanWords, if_neg hw]
      obtain ⟨n, hplain, -, -, hmust⟩ | hmust := mustName_eq form w
      · have hnames : leadingNames (some w :: ws) = n :: leadingNames ws := by
          simp [leadingNames, isEquals, hplain, argName, show n ≠ equals by simpa [hplain] using hw]
        rw [hmust, pure_bind, hnames]
        exact (hcheck n w.pos).bind fun _ => (follows_scanWords hcheck ws).map _
      · rw [hmust]
        exact fun _ _ _ h => by simp at h

/-- An argument whose step follows its walk, and so does the step of the closure literal it starts
with. -/
structure FollowsArg (a : Argument F) (b : ArgWalk) : Prop where
  word : a.word = b.word
  compile : Follows a.compile b.walk
  closure : ∀ step, a.closure = some step → Follows (forwarding step) b.literal

section

variable {args : List (Argument F)} {ws : List ArgWalk}

theorem follows_words (h : List.Forall₂ FollowsArg args ws) :
    args.map (·.word) = ws.map (·.word) := by
  induction h with
  | nil => rfl
  | cons h _ ih => rw [List.map_cons, List.map_cons, h.word, ih]

theorem compileArguments_follows (h : List.Forall₂ FollowsArg args ws) (pos : Pos) :
    Follows (compileArguments args pos) (.all (ws.map (·.walk))) := by
  refine Follows.map ?_ _
  induction h with
  | nil => exact .pure []
  | cons h _ ih =>
    rw [List.mapM_cons]
    exact h.compile.bind fun _ => ih.map _

/-- The values of an assignment, whose names were read. -/
theorem values_follows (h : List.Forall₂ FollowsArg args ws) {names : List Name}
    (hnames : names = assignedNames ws) (pos : Pos) :
    Follows (compileArguments (args.drop (names.length + 1)) pos) (assignedValues ws) := by
  rw [hnames]
  exact compileArguments_follows (List.forall₂_drop _ h) pos

/-- An assignment without `=` has no values. -/
theorem assignedValues_eq_stay (h : (assignedNames ws).length = ws.length) :
    assignedValues ws = .stay := by
  rw [assignedValues, h, List.drop_eq_nil_of_le (Nat.le_succ _)]
  rfl

theorem compileVar_follows {call : SpecialCall F} (h : List.Forall₂ FollowsArg call.args ws) :
    Follows (compileVar call) (BindingForm.var.walk ws) := by
  unfold compileVar BindingForm.walk
  rw [scanNames_eq_scanWords, follows_words h]
  simp only [bind_assoc, pure_bind]
  have hscan : Follows (scanWords .var (fun _ _ => pure ()) (ws.map (·.word))) .stay := by
    rw [← Walk.all_map_stay (leadingNames (ws.map (·.word)))]
    exact follows_scanWords (fun _ _ => Follows.pure ()) _
  have hbind (names : List Name) : Follows (names.forM (CompileM.bind · .any))
      (.all (names.map (.bind · .any))) := .forM (fun n => .bindName n .any) names
  rw [← Walk.stay_andThen ((assignedValues ws).andThen _)]
  refine hscan.sequence fun (names, place) hgive => ?_
  obtain ⟨hnames, -, hlength⟩ := canGive_scanWords hgive
  have hvalues : ∀ pos, Follows (compileArguments (call.args.drop (names.length + 1)) pos)
      (assignedValues ws) := values_follows h hnames
  rw [show assignedNames ws = names from hnames.symm]
  refine follows_ite _ (.after_quiet (.reject _ _ _) fun _ => ?_) ?_
  all_goals
    cases place with
    | some pos => exact (hvalues pos).bind fun _ => (hbind names).map _
    | none =>
      have hall : assignedValues ws = .stay := assignedValues_eq_stay (by
        rw [show assignedNames ws = names from hnames.symm, hlength rfl, List.length_map])
      rw [hall, Walk.stay_andThen]
      exact (hbind names).map _

theorem compileSet_follows {call : SpecialCall F} (h : List.Forall₂ FollowsArg call.args ws) :
    Follows (compileSet call) (BindingForm.set.walk ws) := by
  unfold compileSet BindingForm.walk
  rw [scanNames_eq_scanWords, follows_words h]
  simp only [bind_assoc, pure_bind]
  have hscan : Follows (scanWords .set (fun n pos => discard (CompileM.mustResolve n pos))
      (ws.map (·.word))) (.all ((assignedNames ws).map .look)) :=
    follows_scanWords (fun n pos => (Follows.mustResolve n pos).map _) _
  refine hscan.sequence fun (names, place) hgive => ?_
  obtain ⟨hnames, -⟩ := canGive_scanWords hgive
  refine follows_ite _ (.after_quiet (.reject _ _ _) fun _ => ?_) ?_
  all_goals
    cases place with
    | some pos => exact (values_follows h hnames pos).map _
    | none => exact .reject _ _ _

theorem unbindNames_follows (h : List.Forall₂ FollowsArg args ws) :
    Follows (unbindNames args) (.all (ws.map fun a => .unbind (argName a.word))) := by
  induction h with
  | nil => exact .pure []
  | @cons a b args ws hab _ ih =>
    rw [List.map_cons, Walk.all, unbindNames, Argument.must, hab.word]
    cases b.word with
    | none => exact fun _ _ _ h => by simp at h
    | some w =>
      rw [pure_bind]
      obtain ⟨n, hplain, -, -, hmust⟩ | hmust := mustName_eq .del w
      · rw [hmust, pure_bind, show argName (some w) = n by simp [argName, hplain]]
        refine .after_quiet (.hasLocal n) fun l => ?_
        refine follows_ite _ (.after_quiet (.reject _ _ _) fun _ => ?_) ?_
        all_goals exact (Follows.unbind n).bind fun _ => ih.map _
      · rw [hmust]
        exact fun _ _ _ h => by simp at h

theorem compileDel_follows {call : SpecialCall F} (h : List.Forall₂ FollowsArg call.args ws) :
    Follows (compileDel call) (BindingForm.del.walk ws) := by
  refine (unbindNames_follows h).then_quiet fun names => ?_
  refine follows_ite _ (.after_quiet (.reject _ _ _) fun _ => ?_) ?_
  all_goals exact .pure _

theorem compileFn_follows {call : SpecialCall F} (h : List.Forall₂ FollowsArg call.args ws) :
    Follows (compileFn call) (BindingForm.fn.walk ws) := by
  intro s r s' hgives
  obtain ⟨nameArg, bodyArg, w, n, b, _, _, step, closure, hargs, hw, hplain, -, -, hstep, hclosure, -⟩ :=
    gives_compileFn hgives
  rw [hargs] at h
  match ws, h with
  | [nameWalk, bodyWalk], .cons hname (.cons hbody .nil) =>
    have hn : argName nameWalk.word = n := by simp [argName, ← hname.word, hw, hplain]
    rw [BindingForm.walk, hn]
    have hbind : (Walk.bind (functionName n) .closure).Accounts s _ := Follows.bindName _ _ rfl
    exact hbind.andThen (hbody.closure step hstep hclosure)

/-- Each of the four forms that bind names follows its walk. -/
theorem bindingForm_follows {call : SpecialCall F} (h : List.Forall₂ FollowsArg call.args ws)
    (f : BindingForm) : Follows (f.compile call) (f.walk ws) := by
  cases f with
  | var => exact compileVar_follows h
  | set => exact compileSet_follows h
  | del => exact compileDel_follows h
  | fn => exact compileFn_follows h

end

/-! ### Forms -/

/-- What a command word is, told from the frames at its start: a form that binds names, or a command
that compiles its arguments in the usual way. -/
theorem bindingFormAt_of_gives {env : Env F} (hcore : env.registry.CoreOnly) {command : Option Word}
    {op : ValuesOp F} {c : Command F} (h : (compileCommand env command).Gives s (op, c) s') :
    (∃ f entry, c = .special entry ∧ entry.body = f.compile ∧
        bindingFormAt env.registry s.scopes command = some f) ∨
      ∃ resolution, c = .plain resolution ∧
        bindingFormAt env.registry s.scopes command = none := by
  obtain ⟨w, rfl, ⟨pos, text, hw, t, hstring, hcommand⟩ | ⟨pos, literal, hw, rfl, -⟩⟩ :=
    gives_compileCommand h
  · have hplain : (some w).bind Word.plain? = some text := by simp [Word.plain?, hw]
    have hscopes : t.scopes = s.scopes := by
      have hstring' := (Follows.pure (ValuesOp.string (F := F) text pos)).nested env.options pos hstring
      exact hstring'.scopes
    obtain ⟨hc, -⟩ := gives_resolveCommand.1 hcommand
    rw [hscopes] at hc
    unfold bindingFormAt
    simp only [hplain]
    cases c with
    | special entry =>
      obtain ⟨hkind, hentry⟩ := commandOf_eq_special hc.symm
      obtain ⟨f, rfl, hf⟩ := hcore text entry hentry
      exact .inl ⟨f, entry, rfl, hf, by simp [hkind, hentry, BindingForm.ofName?_name]⟩
    | plain resolution =>
      refine .inr ⟨resolution, rfl, if_pos ?_⟩
      by_contra hspecial
      obtain ⟨hkind, hentry⟩ := not_or.1 hspecial
      obtain ⟨entry, hentry⟩ := Option.ne_none_iff_exists'.1 hentry
      simp [commandOf, hkind, hentry] at hc
  · exact .inr ⟨_, rfl, by simp [bindingFormAt, Word.plain?, hw]⟩

theorem finishCommand_follows {command : Command F} {form : Option BindingForm} {ws : List ArgWalk}
    (hform : (∃ f entry, command = .special entry ∧ entry.body = f.compile ∧ form = some f) ∨
      ∃ resolution, command = .plain resolution ∧ form = none)
    {call : SpecialCall F} (hargs : List.Forall₂ FollowsArg call.args ws) :
    Follows (finishCommand command call) (walkRest form ws) := by
  obtain ⟨f, entry, rfl, hf, rfl⟩ | ⟨resolution, rfl, rfl⟩ := hform
  · change Follows (entry.body call >>= _) _
    rw [hf]
    refine (bindingForm_follows hargs f).then_quiet fun op => ?_
    cases op with
    | none => exact .malformed _ _
    | some op => exact .pure _
  · exact (compileArguments_follows hargs _).map _

theorem checkDescriptor_follows (o : Options) (fd : Int) (pos : Pos) :
    Follows (checkDescriptor o fd pos) .stay :=
  follows_ite _ (.reject _ _ _) (.pure ())

theorem checkRedirections_follows (o : Options) : ∀ rs, Follows (checkRedirections o rs) .stay
  | [] => .pure ()
  | r :: rs => by
    refine follows_ite _ (.after_quiet (.malformed _ _) fun _ => ?_) ?_
    all_goals exact .after_quiet (checkDescriptor_follows o _ _) fun _ => checkRedirections_follows o rs

theorem applySigil_follows (env : Env F) (pos : Pos) (op : ValuesOp F) (b : UInt8) :
    Follows (applySigil env pos (some b) op) (.look (functionName [b])) := by
  refine .after_quiet (.count _) fun _ => (Follows.resolveCommand _ _).then_quiet fun command => ?_
  cases command with
  | special entry => exact .reject _ _ _
  | plain resolution => exact .pure _

/-! ### Trees -/

section

variable (env : Env F)

mutual

theorem compilePipelines_follows (hcore : env.registry.CoreOnly) :
    ∀ ps, Follows (compilePipelines env ps) (walkPipelines env.registry ps)
  | [] => by
    simp only [compilePipelines, walkPipelines]
    exact .pure []
  | p :: ps => by
    simp only [compilePipelines, walkPipelines]
    exact (compilePipeline_follows hcore p).bind fun _ => (compilePipelines_follows hcore ps).map _

theorem forwardingClosure_follows (hcore : env.registry.CoreOnly) :
    ∀ c, Follows (forwarding (compileClosure env c)) (walkClosure env.registry c)
  | ⟨pos, params, ⟨_, pipelines⟩⟩ => by
    simp only [compileClosure, walkClosure]
    exact (compilePipelines_follows hcore pipelines).forwarding env.options pos params

theorem compilePipeline_follows (hcore : env.registry.CoreOnly) :
    ∀ p, Follows (compilePipeline env p) (walkPipeline env.registry p)
  | ⟨pos, forms⟩ => by
    simp only [compilePipeline, walkPipeline]
    exact ((compileForms_follows hcore forms).map _).nested env.options pos

theorem compileForms_follows (hcore : env.registry.CoreOnly) :
    ∀ fs, Follows (compileForms env fs) (walkForms env.registry fs)
  | [] => by
    simp only [compileForms, walkForms]
    exact .pure []
  | f :: fs => by
    simp only [compileForms, walkForms]
    exact (compileForm_follows hcore f).bind fun _ => (compileForms_follows hcore fs).map _

theorem compileForm_follows (hcore : env.registry.CoreOnly) :
    ∀ f, Follows (compileForm env f) (walkForm env.registry f)
  | ⟨pos, command, argsPos, args, redirections⟩ => by
    simp only [compileForm, walkForm]
    refine Follows.nested env.options pos (.after_quiet (.count _) fun _ => ?_)
    -- the walk of the rest depends on the frames here, so the run is taken apart by hand
    intro s op s' h
    obtain ⟨⟨commandOp, c⟩, t, hcommand, hrest⟩ := CompileM.gives_bind.1 h
    obtain ⟨_, _, hcheck, hrest⟩ := CompileM.gives_bind.1 hrest
    obtain ⟨ports, u, hports, hrest⟩ := CompileM.gives_bind.1 hrest
    have hargs : Follows (finishCommand c ⟨env.source, pos, argsPos, compileArgs env args⟩)
        (walkRest (bindingFormAt env.registry s.scopes command) (walkArgs env.registry args)) :=
      finishCommand_follows (bindingFormAt_of_gives hcore hcommand) (compileArgs_follows hcore args)
    have hquiet : Walk.stay.Accounts t _ := checkRedirections_follows env.options redirections hcheck
    have htail := (compileRedirections_follows hcore redirections _ hports).andThen (hargs.map _ hrest)
    have hwhole := (compileCommand_follows hcore command hcommand).andThen (hquiet.andThen htail)
    rw [Walk.stay_andThen] at hwhole
    exact ⟨hwhole.scopes, hwhole.captures⟩

theorem compileCommand_follows (hcore : env.registry.CoreOnly) :
    ∀ w, Follows (compileCommand env w) (walkCommand env.registry w)
  | none => .malformed _ _
  | some ⟨pos, none, [⟨_, .string p text, none⟩]⟩ => by
    simp only [compileCommand, walkCommand, commandHead]
    refine .after_quiet ?_ fun op => (Follows.resolveCommand _ _).map _
    exact (Follows.pure _).nested env.options p
  | some ⟨pos, none, [⟨_, .closure p (some c), none⟩]⟩ => by
    simp only [compileCommand, walkCommand, commandHead, compilePrimary]
    exact ((forwardingClosure_follows hcore c).nested env.options p).map _
  | some ⟨pos, none, [⟨_, .closure p none, none⟩]⟩ =>
    ((Follows.malformed _ _).nested env.options p).map _
  | some ⟨_, none, [⟨_, .variable .., none⟩]⟩ | some ⟨_, none, [⟨_, .table .., none⟩]⟩
  | some ⟨_, none, [⟨_, .list .., none⟩]⟩ | some ⟨_, none, [⟨_, .chanCapture .., none⟩]⟩
  | some ⟨_, none, [⟨_, .statusCapture .., none⟩]⟩ | some ⟨_, none, [⟨_, .unknown _, none⟩]⟩
  | some ⟨_, none, []⟩ | some ⟨_, none, ⟨_, _, some _⟩ :: _⟩ | some ⟨_, none, ⟨_, _, none⟩ :: _ :: _⟩
  | some ⟨_, some _, _⟩ => .reject _ _ _

theorem compileArgs_follows (hcore : env.registry.CoreOnly) :
    ∀ ws, List.Forall₂ FollowsArg (compileArgs env ws) (walkArgs env.registry ws)
  | [] => by
    simp only [compileArgs, walkArgs]
    exact .nil
  | w :: ws => by
    simp only [compileArgs, walkArgs]
    exact .cons (compileArg_follows hcore w) (compileArgs_follows hcore ws)

theorem compileArg_follows (hcore : env.registry.CoreOnly) :
    ∀ w, FollowsArg (compileArg env w) (walkArg env.registry w)
  | none => ⟨rfl, .malformed _ _, nofun⟩
  | some w => ⟨rfl, compileWord_follows hcore w, compileLiteral_follows hcore w⟩

theorem compileLiteral_follows (hcore : env.registry.CoreOnly) :
    ∀ w step, compileLiteral? env w = some step →
    Follows (forwarding step) (walkLiteral env.registry w)
  | ⟨_, _, ⟨_, .closure _ (some c), _⟩ :: _⟩, step, h => by
    simp only [compileLiteral?, Option.some.injEq] at h
    rw [← h]
    simp only [walkLiteral]
    exact forwardingClosure_follows hcore c
  | ⟨_, _, []⟩, _, h | ⟨_, _, ⟨_, .closure _ none, _⟩ :: _⟩, _, h
  | ⟨_, _, ⟨_, .string .., _⟩ :: _⟩, _, h | ⟨_, _, ⟨_, .variable .., _⟩ :: _⟩, _, h
  | ⟨_, _, ⟨_, .table .., _⟩ :: _⟩, _, h | ⟨_, _, ⟨_, .list .., _⟩ :: _⟩, _, h
  | ⟨_, _, ⟨_, .chanCapture .., _⟩ :: _⟩, _, h | ⟨_, _, ⟨_, .statusCapture .., _⟩ :: _⟩, _, h
  | ⟨_, _, ⟨_, .unknown _, _⟩ :: _⟩, _, h => by simp [compileLiteral?] at h

theorem compileRedirections_follows (hcore : env.registry.CoreOnly) :
    ∀ rs ports,
    Follows (compileRedirections env rs ports) (walkRedirections env.registry rs)
  | [], _ => by
    simp only [compileRedirections, walkRedirections]
    exact .pure _
  | r :: rs, ports => by
    simp only [compileRedirections, walkRedirections]
    exact (compileRedirection_follows hcore r).bind fun _ => compileRedirections_follows hcore rs _

theorem compileRedirection_follows (hcore : env.registry.CoreOnly) :
    ∀ r, Follows (compileRedirection env r) (walkRedirection env.registry r)
  | ⟨_, _, .close⟩ => .pure _
  | ⟨pos, _, .dup source⟩ => by
    simp only [compileRedirection, walkRedirection]
    refine follows_ite _ (.after_quiet (.malformed _ _) fun _ => ?_) ?_
    all_goals exact (checkDescriptor_follows env.options source pos).map _
  | ⟨_, _, .file _ none⟩ => .malformed _ _
  | ⟨_, _, .file _ (some filename)⟩ => by
    simp only [compileRedirection, walkRedirection]
    exact (compileWord_follows hcore filename).map _
  | ⟨_, _, .unknown⟩ => .malformed _ _

theorem compileWords_follows (hcore : env.registry.CoreOnly) :
    ∀ ws, Follows (compileWords env ws) (walkWords env.registry ws)
  | [] => by
    simp only [compileWords, walkWords]
    exact .pure []
  | none :: _ => by
    simp only [compileWords]
    exact .malformed _ _
  | some w :: ws => by
    simp only [compileWords, walkWords]
    exact (compileWord_follows hcore w).bind fun _ => (compileWords_follows hcore ws).map _

theorem compileWord_follows (hcore : env.registry.CoreOnly) :
    ∀ w, Follows (compileWord env w) (walkWord env.registry w)
  | ⟨pos, none, parts⟩ => by
    simp only [compileWord, walkWord]
    refine Follows.nested _ pos (follows_ite _ (.after_quiet (.malformed _ _) fun _ => ?_) ?_)
    all_goals exact (compileParts_follows hcore parts).then_quiet fun _ => .pure _
  | ⟨pos, some b, parts⟩ => by
    simp only [compileWord, walkWord]
    refine Follows.nested _ pos (follows_ite _ (.after_quiet (.malformed _ _) fun _ => ?_) ?_)
    all_goals exact (compileParts_follows hcore parts).bind fun _ => applySigil_follows env pos _ b

theorem compileParts_follows (hcore : env.registry.CoreOnly) :
    ∀ ps, Follows (compileParts env ps) (walkParts env.registry ps)
  | [] => by
    simp only [compileParts, walkParts]
    exact .pure []
  | p :: ps => by
    simp only [compileParts, walkParts]
    exact (compilePart_follows hcore p).bind fun _ => (compileParts_follows hcore ps).map _

theorem compilePart_follows (hcore : env.registry.CoreOnly) :
    ∀ p, Follows (compilePart env p) (walkPart env.registry p)
  | ⟨_, left, none⟩ => by
    simp only [compilePart, walkPart]
    exact compilePrimary_follows hcore left
  | ⟨_, left, some index⟩ => by
    simp only [compilePart, walkPart]
    exact (compilePrimary_follows hcore left).bind fun _ => (compileWord_follows hcore index).map _

theorem compilePairs_follows (hcore : env.registry.CoreOnly) :
    ∀ ps, Follows (compilePairs env ps) (walkPairs env.registry ps)
  | [] => by
    simp only [compilePairs, walkPairs]
    exact .pure []
  | ⟨some key, some value⟩ :: rest => by
    simp only [compilePairs, walkPairs]
    refine (compileWord_follows hcore key).bind fun _ => ?_
    refine (compileWord_follows hcore value).bind fun _ => ?_
    exact (compilePairs_follows hcore rest).map _
  | ⟨none, _⟩ :: _ => .malformed _ _
  | ⟨some _, none⟩ :: _ => .malformed _ _

theorem compilePrimary_follows (hcore : env.registry.CoreOnly) :
    ∀ p, Follows (compilePrimary env p) (walkPrimary env.registry p)
  | .string pos text => (Follows.pure _).nested env.options pos
  | .variable pos name => by
    simp only [compilePrimary, walkPrimary]
    refine Follows.nested _ pos ((Follows.mustResolve name pos).then_quiet fun _ => ?_)
    exact (Follows.count _).map _
  | .table pos items pairs => by
    simp only [compilePrimary, walkPrimary]
    refine Follows.nested _ pos ((compileWords_follows hcore items).bind fun itemOps => ?_)
    refine (compilePairs_follows hcore pairs).then_quiet fun pairOps => ?_
    cases ValuesOp.table? (.spaced itemOps pos) (pairOps.map (·.1)) (pairOps.map (·.2)) pos with
    | ok op => exact .pure op
    | error cause => exact .malformed cause _
  | .closure pos none => (Follows.malformed _ _).nested env.options pos
  | .closure pos (some c) => by
    simp only [compilePrimary, walkPrimary]
    exact (forwardingClosure_follows hcore c).nested _ pos
  | .list pos itemsPos items => by
    simp only [compilePrimary, walkPrimary]
    exact ((compileWords_follows hcore items).map _).nested _ pos
  | .chanCapture pos none => (Follows.malformed _ _).nested env.options pos
  | .chanCapture pos (some p) => by
    simp only [compilePrimary, walkPrimary]
    exact ((compilePipeline_follows hcore p).map _).nested _ pos
  | .statusCapture pos none => (Follows.malformed _ _).nested env.options pos
  | .statusCapture pos (some p) => by
    simp only [compilePrimary, walkPrimary]
    exact (compilePipeline_follows hcore p).nested _ pos
  | .unknown pos => (Follows.malformed _ _).nested env.options pos

end

end

/-- **Capture sets are exact.** Whatever state a closure literal is compiled in, what its op captures
are the names that its code looks up, in closures inside it too, and finds below its own frame, each
with the kind found there. The frame of the closure has as its level the number of frames around
it. -/
theorem captures_exact (env : Env F) (hcore : env.registry.CoreOnly) (c : Closure)
    {compiled : CompiledClosure F} (h : (compileClosure env c).Gives s compiled s') :
    (∃ pipelines, compiled.op = .closureOf c.params pipelines compiled.captures c.pos) ∧
    ∀ (n : Name) (t : Ty), compiled.captures[n]? = some t ↔
      ∃ l ∈ ((walkClosure env.registry c).trail s.scopes).lookups,
        l.name = n ∧ l.typeBelow s.scopes.depth = some t := by
  obtain ⟨pos, params, ⟨_, pipelines⟩⟩ := c
  have hbody := compilePipelines_follows env hcore pipelines
  simp only [compileClosure] at h
  obtain ⟨-, -, hop, hexact⟩ := hbody.closure h
  refine ⟨hop, fun n t => ?_⟩
  rw [hexact n, walkClosure]
  exact firstBelow_eq_some_iff ((walkPipelines env.registry pipelines).frames_closure params s.scopes)

/-- The code `{ |p| var y; echo { echo $x $y $p }; echo $y }`. -/
def shadowingClosure : Closure :=
  closureOf ["p"]
    [formOf "var" [.string 0 (utf8 "y")],
      formOf "echo" [.closure 0 (some (closureOf []
        [formOf "echo" [.variable 0 (utf8 "x"), .variable 0 (utf8 "y"), .variable 0 (utf8 "p")]]))],
      formOf "echo" [.variable 0 (utf8 "y")]]

/-- Names outside of `shadowingClosure`. -/
def shadowedRoot : CompileState := .ofRoot {(utf8 "x", .list), (utf8 "y", .string)}

theorem captures_exact_shadowing :
    ∃ compiled s', (compileClosure (coreEnv : Env Unit) shadowingClosure).Gives shadowedRoot compiled s' ∧
      compiled.captures.toList = [(utf8 "x", .list)] ∧
      (∃ l ∈ ((walkClosure (coreEnv : Env Unit).registry shadowingClosure).trail
          shadowedRoot.scopes).lookups,
        l.name = utf8 "x" ∧ l.typeBelow shadowedRoot.scopes.depth = some .list) := by
  have hlist : ((compileClosure (coreEnv : Env Unit) shadowingClosure).outcome
      shadowedRoot).1.toOption.map (·.captures.toList) = some [(utf8 "x", .list)] := by decide +kernel
  rcases hout : (compileClosure (coreEnv : Env Unit) shadowingClosure).outcome shadowedRoot with
    ⟨e | compiled, s'⟩
  · simp [hout, Except.toOption] at hlist
  · have hcaptures : compiled.captures.toList = [(utf8 "x", .list)] := by
      simpa [hout, Except.toOption] using hlist
    have hx : compiled.captures[utf8 "x"]? = some .list :=
      Std.ExtTreeMap.mem_toList_iff_getElem?_eq_some.1 (by rw [hcaptures]; exact List.mem_singleton.2 rfl)
    have hexact := captures_exact (coreEnv : Env Unit) coreOnly_coreEnv shadowingClosure hout
    exact ⟨compiled, s', hout, hcaptures, (hexact.2 _ _).1 hx⟩

end ShellOps
