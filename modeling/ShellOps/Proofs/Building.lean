/-
# How ops are built

What a compiled op does can be proved by looking at how it was built: from the ops of its parts,
each compiled in the state the one before it left. `Builds` lists the ways in which ops are built,
one rule for each, as what a property of ops has to respect. A property that respects them all holds
of every op that compiling gives (`compilePipelines_builds`).

A property speaks of an op, of the states before and after it was compiled, and of the forms that
run with it (a list that holds them). The rules for forms can use a condition `good` which the forms
of the tree meet; unless `deep`, nothing is assumed of the forms in the code of closures, and nothing
is said of the ops there.
-/
import ShellOps.Compiler
import ShellOps.Proofs.Captures
import ShellOps.Proofs.Coherence
import ShellOps.Proofs.Forms

namespace ShellOps

variable {α F : Type}

/-! ### States -/

namespace CompileState

/-- The state after the name `n` was looked up. -/
def looked (s : CompileState) (n : Name) : CompileState :=
  { s with captures := (s.scopes.resolve n s.captures).2 }

/-- The state with some names bound. -/
def bound (s : CompileState) (names : List Name) : CompileState :=
  { s with scopes := names.foldl (·.bind · .any) s.scopes }

/-- The state with something counted. -/
def counted (s : CompileState) (f : Stats → Stats) : CompileState := { s with stats := f s.stats }

/-- The state after a closure literal was compiled, whose code ended in the state `t`, and its
captures were passed on. -/
def passedOn (s t : CompileState) : CompileState :=
  { t.left s.scopes s.captures with
    depth := t.depth - 1
    captures := (t.captures.forward s.scopes s.captures).1 }

@[simp] theorem scopes_bound (s : CompileState) (names : List Name) :
    (s.bound names).scopes = names.foldl (·.bind · .any) s.scopes := rfl

@[simp] theorem scopes_lookedAll (names : List Name) : ∀ s : CompileState,
    (names.foldl (·.looked ·) s).scopes = s.scopes := by
  induction names with
  | nil => exact fun _ => rfl
  | cons n names ih => exact fun s => ih (s.looked n)

end CompileState

/-! ### What ops are built from -/

/-- Results of steps one after the other, each related to the states around it. -/
inductive Chain (R : CompileState → α → CompileState → Prop) :
    CompileState → List α → CompileState → Prop
  | nil {s : CompileState} : Chain R s [] s
  | cons {s t s' : CompileState} {a : α} {as : List α} :
    R s a t → Chain R t as s' → Chain R s (a :: as) s'

/-- The same of two results one after the other. -/
def InPairs (R : CompileState → α → CompileState → Prop) (s : CompileState) (p : α × α)
    (s' : CompileState) : Prop := ∃ t, R s p.1 t ∧ R t p.2 s'

/-- A command that is no special form has no op of its own, and it is a function of the script only if
the script binds it as one. -/
theorem plain_of_commandOf {r : Registry F} {n : Name} {kind : Option Ty} {resolution : Resolution F}
    (h : commandOf r n kind = .plain resolution) :
    resolution.op = .missing ∧ resolution.kind ≠ .special ∧
      (resolution.kind = .userFunction → kind = some .closure) := by
  unfold commandOf at h
  split at h
  · next hk =>
    cases h
    exact ⟨rfl, nofun, fun _ => hk⟩
  · split at h
    · cases h
    · split at h <;> cases h <;> exact ⟨rfl, nofun, nofun⟩

/-- The op `op` of a command word, compiled up to the state `t`, stands for the command `c`; the
state is then `t'`. -/
inductive CommandFound (r : Registry F) : ValuesOp F → CompileState → Command F → CompileState → Prop
  | text (text : Bytes) (pos : Pos) (t : CompileState) :
    CommandFound r (.string text pos) t (commandOf r text (t.scopes.type? (functionName text)))
      (t.looked (functionName text))
  | closure (params : List Name) (captures : CaptureSet) (chunk : ValuesOp F) (pos : Pos)
      (t : CompileState) :
    CommandFound r (.closure params captures chunk pos) t (.plain (.bare .closure)) t

theorem CommandFound.scopes {r : Registry F} {op : ValuesOp F} {c : Command F}
    {t t' : CompileState} (h : CommandFound r op t c t') : t'.scopes = t.scopes := by
  cases h <;> rfl

theorem CommandFound.plain {r : Registry F} {op : ValuesOp F} {resolution : Resolution F}
    {t t' : CompileState} (h : CommandFound r op t (.plain resolution) t') :
    resolution.op = .missing ∧ resolution.kind ≠ .special := by
  generalize hc : Command.plain resolution = c at h
  cases h with
  | text text pos t =>
    obtain ⟨hop, hkind, -⟩ := plain_of_commandOf hc.symm
    exact ⟨hop, hkind⟩
  | closure =>
    obtain rfl := Command.plain.inj hc
    exact ⟨rfl, nofun⟩

/-- The port op of a redirection. -/
inductive PortFor (o : Options) : Redirection → PortOp F → Prop
  | close (pos : Pos) (fd : Int) : PortFor o ⟨pos, fd, .close⟩ (.close pos)
  | dup (pos : Pos) (fd source : Int) : PortFor o ⟨pos, fd, .dup source⟩ (.dup source pos)
  | file (pos : Pos) (fd : Int) (flags : Int32) (filename : Word) (op : ValuesOp F) :
    PortFor o ⟨pos, fd, .file flags (some filename)⟩ (.file op flags o.fileMode pos)

/-- A table of ports with the ops of some redirections put in, one by one. -/
def fillPorts : List Redirection → List (PortOp F) → List (Option (PortOp F)) →
    List (Option (PortOp F))
  | r :: rs, op :: ops, ports => fillPorts rs ops (ports.set r.fd.toNat (some op))
  | _, _, ports => ports

/-- The table of ports of a form whose redirections have the given ops. -/
def portTable (rs : List Redirection) (ops : List (PortOp F)) : List (Option (PortOp F)) :=
  fillPorts rs ops (List.replicate (portCount rs) none)

/-- A slot of a table of ports is empty or holds one of the ops that were put in. -/
theorem mem_fillPorts {slot : Option (PortOp F)} : ∀ (rs : List Redirection) (ops : List (PortOp F))
    (ports : List (Option (PortOp F))), slot ∈ fillPorts rs ops ports →
      slot ∈ ports ∨ ∃ op ∈ ops, slot = some op
  | [], _, _, h => .inl h
  | _ :: _, [], _, h => .inl h
  | r :: rs, op :: ops, ports, h => by
    rcases mem_fillPorts rs ops _ h with hslot | ⟨op', hop', rfl⟩
    · rcases List.mem_or_eq_of_mem_set hslot with hold | rfl
      · exact .inl hold
      · exact .inr ⟨op, List.mem_cons_self, rfl⟩
    · exact .inr ⟨op', List.mem_cons_of_mem op hop', rfl⟩

theorem mem_portTable {slot : Option (PortOp F)} {rs : List Redirection} {ops : List (PortOp F)}
    (h : slot ∈ portTable rs ops) : slot = none ∨ ∃ op ∈ ops, slot = some op := by
  rcases mem_fillPorts rs ops _ h with hslot | hslot
  · exact .inl (List.eq_of_mem_replicate hslot)
  · exact .inr hslot

/-- The names that a form which binds or assigns names begins with. -/
def Form.names (f : Form) : List Name := leadingNames f.args

/-- The form has a word `=`. -/
def Form.Assigns (f : Form) : Prop := f.args.any isEquals

instance (f : Form) : Decidable f.Assigns := inferInstanceAs (Decidable (_ = _))

/-- The stage that a sigil stands for. -/
def sigilStage (o : Options) (sigil : UInt8) (op : ValuesOp F) (resolution : Resolution F)
    (pos : Pos) : FormOp F :=
  { command := .string [sigil] pos, args := op, ports := [], resolution, unset := o.unsetPorts, pos }

section

variable (env : Env F)
variable (V : List Form → CompileState → ValuesOp F → CompileState → Prop)
variable (Q : List Form → CompileState → PortOp F → CompileState → Prop)

/-- The first part of a form: its command word, which gives `op` and stands for `c`, and its
redirections, which give `portOps` and whose descriptors are within the limit. -/
structure FormHead (f : Form) (fs : List Form) (s : CompileState) (op : ValuesOp F) (c : Command F)
    (portOps : List (PortOp F)) (s' : CompileState) : Prop where
  parts : ∃ t u, V fs (s.counted fun n => { n with forms := n.forms + 1 }) op t ∧
    CommandFound env.registry op t c u ∧
    Chain (Q (formsInRedirections false f.redirections)) u portOps s'
  ports : List.Forall₂ (PortFor env.options) f.redirections portOps
  checked : ∀ r ∈ f.redirections, 0 ≤ r.fd ∧ r.fd ≤ env.options.maxFd

/-- What a property of ops has to respect, by the ways in which ops are built: `V` is the property
of values ops, `P` of form ops and `Q` of port ops. -/
structure Builds (deep : Bool) (good : Form → Prop)
    (P : List Form → CompileState → FormOp F → CompileState → Prop) : Prop where
  nested : ∀ {fs s op t}, V fs s.deeper op t → V fs s op { t with depth := t.depth - 1 }
  nestedForm : ∀ {fs s op t}, P fs s.deeper op t → P fs s op { t with depth := t.depth - 1 }
  string : ∀ {fs s} text pos, V fs s (.string text pos) s
  reference : ∀ {fs s n t} pos, s.scopes.type? n = some t →
    V fs s (.variable n pos) ((s.looked n).counted fun c => { c with references := c.references + 1 })
  word : ∀ {fs s ops s'} pos, ops ≠ [] → Chain (V fs) s ops s' → V fs s (.word ops pos) s'
  sigil : ∀ {fs s op t resolution} b pos, V fs s op t →
    commandOf env.registry [b] (t.scopes.type? (functionName [b])) = .plain resolution →
    V fs s (ValuesOp.pipeline [some (sigilStage env.options b op resolution pos)] pos).capture
      ((t.counted fun c => { c with sigils := c.sigils + 1 }).looked (functionName [b]))
  indexed : ∀ {fs s left t index s'} pos, V fs s left t → V fs t index s' →
    V fs s (.indexed left index pos) s'
  spaced : ∀ {fs s ops s'} pos, Chain (V fs) s ops s' → V fs s (.spaced ops pos) s'
  table : ∀ {fs s items t pairs s'} pos, Chain (V fs) s items t →
    Chain (InPairs (V fs)) t pairs s' →
    V fs s (.table (.spaced items pos) (pairs.map (·.1)) (pairs.map (·.2)) pos) s'
  closure : ∀ {fs gs s pipelines t} params pos,
    (deep = true → Chain (V gs) (s.deeper.entered params) pipelines t) →
    (∀ (n : Name) (u : Ty), t.captures[n]? = some u → s.scopes.type? n = some u) →
    V fs s (.closureOf params pipelines t.captures pos) (s.passedOn t)
  pipeline : ∀ {fs s stages s'} pos, Chain (P fs) s stages s' →
    V fs s (.pipeline (stages.map some) pos) s'
  capture : ∀ {fs s stages pos s'}, V fs s (.pipeline stages pos) s' →
    V fs s (ValuesOp.pipeline stages pos).capture s'
  plainForm : ∀ {f fs s op resolution portOps t args s'}, good f → formsInForm false f ⊆ fs →
    FormHead env V Q f fs s op (.plain resolution) portOps t →
    Chain (V (formsInWords false f.args)) t args s' →
    P fs s ⟨op, .spaced args f.argsPos, portTable f.redirections portOps, resolution,
      env.options.unsetPorts, f.pos⟩ s'
  specialForm : ∀ {f fs s op entry portOps t special s'}, good f → formsInForm false f ⊆ fs →
    FormHead env V Q f fs s op (.special entry) portOps t → V fs t special s' →
    P fs s ⟨op, .missing, portTable f.redirections portOps,
      .ofSpecial { id := entry.id, name := entry.name, body := () } special,
      env.options.unsetPorts, f.pos⟩ s'
  var : ∀ {f fs s values t} valuesPos, good f → f.Is .var → formsInForm false f ⊆ fs → f.Assigns →
    f.names ≠ [] → Chain (V (formsInWords false f.args)) s values t →
    V fs s (.var f.names (.spaced values valuesPos) f.pos) (t.bound f.names)
  declare : ∀ {f fs s}, good f → f.Is .var → formsInForm false f ⊆ fs → ¬ f.Assigns → f.names ≠ [] →
    V fs s (.var f.names .missing f.pos) (s.bound f.names)
  set : ∀ {f fs s names values s'} valuesPos pos, good f → f.Is .set → formsInForm false f ⊆ fs →
    names ≠ [] → (∀ n ∈ names, (s.scopes.type? n).isSome) →
    Chain (V (formsInWords false f.args)) (names.foldl (·.looked ·) s) values s' →
    V fs s (.set names (.spaced values valuesPos) pos) s'
  del : ∀ {f fs s names frame} pos, f.Is .del → formsInForm false f ⊆ fs → names ≠ [] →
    deleteNames names s.scopes.innermost = some frame →
    V fs s (.del names pos) { s with scopes := { s.scopes with innermost := frame } }
  fn : ∀ {f fs s name params captures chunk closurePos s'} pos, f.Is .fn →
    (env.registry.findSpecial (utf8 BindingForm.fn.name)).isSome → formsInForm false f ⊆ fs →
    V (formsInWords false f.args) { s with scopes := s.scopes.bind (functionName name) .closure }
      (.closure params captures chunk closurePos) s' →
    V fs s (.fn name (.closure params captures chunk closurePos) pos) s'
  closePort : ∀ {fs s} pos, Q fs s (.close pos) s
  dupPort : ∀ {fs s source} pos, 0 ≤ source → source ≤ env.options.maxFd → Q fs s (.dup source pos) s
  filePort : ∀ {fs s op s'} flags pos, V fs s op s' →
    Q fs s (.file op flags env.options.fileMode pos) s'

end

/-! ### Special forms -/

section

variable {s s' : CompileState} {gs : List Form} {args : List (Argument F)}
variable {V : List Form → CompileState → ValuesOp F → CompileState → Prop}

/-- An argument whose op, and the op of the closure literal it starts with, have the property. -/
structure BuildsArg (V : List Form → CompileState → ValuesOp F → CompileState → Prop)
    (gs : List Form) (a : Argument F) : Prop where
  compile : ∀ {s op s'}, a.compile.Gives s op s' → V gs s op s'
  closure : ∀ {step s op s'}, a.closure = some step → (forwarding step).Gives s op s' →
    ∃ params captures chunk pos, op = .closure params captures chunk pos ∧ V gs s op s'

theorem chain_of_gives_mapM : ∀ {args : List (Argument F)} {s : CompileState} {ops},
    (∀ a ∈ args, BuildsArg V gs a) → (args.mapM Argument.compile).Gives s ops s' → Chain (V gs) s ops s'
  | [], s, ops, _, h => by
    obtain ⟨rfl, rfl⟩ := CompileM.gives_pure.1 (by simpa using h)
    exact .nil
  | a :: args, s, ops, hargs, h => by
    rw [List.mapM_cons] at h
    simp only [CompileM.gives_bind, CompileM.gives_pure] at h
    obtain ⟨op, t, hop, ops', u, hops, rfl, rfl⟩ := h
    have ha := hargs a List.mem_cons_self
    exact .cons (ha.compile hop)
      (chain_of_gives_mapM (fun b hb => hargs b (List.mem_cons_of_mem a hb)) hops)

theorem gives_compileArguments {op : ValuesOp F} {pos : Pos} (hargs : ∀ a ∈ args, BuildsArg V gs a)
    (h : (compileArguments args pos).Gives s op s') :
    ∃ ops, op = .spaced ops pos ∧ Chain (V gs) s ops s' := by
  simp only [compileArguments, CompileM.gives_bind, CompileM.gives_pure] at h
  obtain ⟨ops, t, hops, rfl, rfl⟩ := h
  exact ⟨ops, rfl, chain_of_gives_mapM hargs hops⟩

/-- What reading the names of an assignment does to the state, when `check` takes each name with a
step that leaves the frames alone. -/
theorem gives_scanWords {form : BindingForm} {check : Name → Pos → CompileM Unit}
    (ok : ScopeStack → Name → Prop) (step : CompileState → Name → CompileState)
    (hstep : ∀ t n, (step t n).scopes = t.scopes)
    (hcheck : ∀ {n pos t u t'}, (check n pos).Gives t u t' → ok t.scopes n ∧ t' = step t n)
    {ws : List (Option Word)} {names : List Name} {place : Option Pos}
    (h : (scanWords form check ws).Gives s (names, place) s') :
    (∀ n ∈ names, ok s.scopes n) ∧ s' = names.foldl step s := by
  induction ws generalizing s names place with
  | nil =>
    obtain ⟨⟨rfl, rfl⟩, rfl⟩ : (names = [] ∧ place = none) ∧ s' = s := by simpa [scanWords] using h
    exact ⟨List.forall_mem_nil _, rfl⟩
  | cons w ws ih =>
    cases w with
    | none => exact absurd h CompileM.gives_malformed
    | some w =>
      by_cases hw : w.plain? = some equals
      · obtain ⟨⟨rfl, rfl⟩, rfl⟩ : (names = [] ∧ place = some w.pos) ∧ s' = s := by
          simpa [scanWords, hw] using h
        exact ⟨List.forall_mem_nil _, rfl⟩
      · simp only [scanWords, if_neg hw, CompileM.gives_bind, CompileM.gives_pure, Prod.mk.injEq] at h
        obtain ⟨n, t, hn, _, u, hu, ⟨names', place'⟩, u', hrest, ⟨rfl, rfl⟩, rfl⟩ := h
        obtain ⟨n', -, -, -, hmust⟩ | hmust := mustName_eq form w
        · rw [hmust] at hn
          obtain ⟨rfl, rfl⟩ := CompileM.gives_pure.1 hn
          obtain ⟨hok, rfl⟩ := hcheck hu
          obtain ⟨hnames, rfl⟩ := ih hrest
          rw [hstep] at hnames
          exact ⟨List.forall_mem_cons.2 ⟨hok, hnames⟩, rfl⟩
        · rw [hmust] at hn
          exact absurd hn CompileM.gives_reject

theorem foldl_stay (s : CompileState) : ∀ names : List Name, names.foldl (fun t _ => t) s = s
  | [] => rfl
  | _ :: names => foldl_stay s names

theorem gives_forM_bind {names : List Name} {u : Unit} :
    (names.forM (CompileM.bind · .any)).Gives s u s' ↔ s' = s.bound names := by
  induction names generalizing s with
  | nil => exact CompileM.gives_pure.trans (and_iff_right rfl)
  | cons n names ih =>
    constructor
    · intro h
      obtain ⟨_, t, hn, hrest⟩ := CompileM.gives_bind.1 h
      obtain rfl := CompileM.gives_bindName.1 hn
      exact ih.1 hrest
    · intro h
      exact CompileM.gives_bind.2 ⟨(), _, CompileM.gives_bindName.2 rfl, ih.2 h⟩

theorem gives_unbindNames : ∀ {args : List (Argument F)} {s : CompileState} {names : List Name},
    (unbindNames args).Gives s names s' → ∃ frame, deleteNames names s.scopes.innermost = some frame ∧
      s' = { s with scopes := { s.scopes with innermost := frame } }
  | [], s, names, h => by
    obtain ⟨rfl, rfl⟩ := CompileM.gives_pure.1 h
    exact ⟨_, rfl, rfl⟩
  | a :: args, s, names, h => by
    obtain ⟨w, t, hw, h⟩ := CompileM.gives_bind.1 h
    obtain ⟨n, u, hn, h⟩ := CompileM.gives_bind.1 h
    obtain ⟨l, v, hl, h⟩ := CompileM.gives_bind.1 h
    obtain rfl : t = s := by
      unfold Argument.must at hw
      cases ha : a.word with
      | none => simp [ha] at hw
      | some w' => exact (CompileM.gives_pure.1 (by simpa [ha] using hw)).2
    obtain rfl : u = t := by
      obtain ⟨n', -, -, -, hmust⟩ | hmust := mustName_eq .del w
      · rw [hmust] at hn
        exact (CompileM.gives_pure.1 hn).2
      · rw [hmust] at hn
        exact absurd hn CompileM.gives_reject
    obtain ⟨rfl, rfl⟩ := CompileM.gives_hasLocal.1 hl
    by_cases hlocal : v.scopes.hasLocal n
    · simp only [hlocal, Bool.not_true, Bool.false_eq_true, if_false, CompileM.gives_bind,
        CompileM.gives_unbind, CompileM.gives_pure] at h
      obtain ⟨-, t', rfl, names', t'', hrest, rfl, rfl⟩ := h
      obtain ⟨frame, hframe, rfl⟩ := gives_unbindNames hrest
      have hmem : n ∈ v.scopes.innermost := hlocal
      exact ⟨frame, by rw [deleteNames, if_pos hmem]; exact hframe, rfl⟩
    · simp [hlocal] at h

end

section

variable {env : Env F} {deep : Bool} {good : Form → Prop}
variable {V : List Form → CompileState → ValuesOp F → CompileState → Prop}
variable {P : List Form → CompileState → FormOp F → CompileState → Prop}
variable {Q : List Form → CompileState → PortOp F → CompileState → Prop}
variable {s s' : CompileState} {f : Form} {fs : List Form} {call : SpecialCall F} {op : ValuesOp F}
variable (H : Builds env V Q deep good P)
include H

theorem Builds.compileVar (hargs : ∀ a ∈ call.args, BuildsArg V (formsInWords false f.args) a)
    (hwords : call.args.map (·.word) = f.args) (hpos : call.pos = f.pos) (hgood : good f)
    (hf : f.Is .var) (hfs : formsInForm false f ⊆ fs) (h : (compileVar call).Gives s (some op) s') :
    V fs s op s' := by
  unfold ShellOps.compileVar at h
  rw [scanNames_eq_scanWords, hwords, hpos] at h
  simp only [bind_assoc, pure_bind] at h
  obtain ⟨⟨names, place⟩, t, hscan, h⟩ := CompileM.gives_bind.1 h
  obtain ⟨-, ht⟩ := gives_scanWords (fun _ _ => True) (fun t _ => t) (fun _ _ => rfl)
    (fun h => ⟨trivial, (CompileM.gives_pure.1 h).2⟩) hscan
  obtain rfl : t = s := by rw [ht, foldl_stay]
  obtain ⟨hnames, hplace, -⟩ := canGive_scanWords ⟨_, _, hscan⟩
  obtain rfl : names = f.names := hnames
  by_cases hempty : f.names = []
  · simp [hempty] at h
  · rw [List.isEmpty_eq_false_iff.2 hempty] at h
    simp only [Bool.false_eq_true, if_false] at h
    cases place with
    | none =>
      obtain ⟨_, u, hbind, h⟩ := CompileM.gives_bind.1 h
      obtain ⟨hop, rfl⟩ := CompileM.gives_pure.1 h
      obtain rfl := Option.some.inj hop
      obtain rfl := gives_forM_bind.1 hbind
      exact H.declare hgood hf hfs (Bool.eq_false_iff.1 hplace.symm) hempty
    | some pos =>
      obtain ⟨valuesOp, u, hvalues, h⟩ := CompileM.gives_bind.1 h
      obtain ⟨_, v, hbind, h⟩ := CompileM.gives_bind.1 h
      obtain ⟨hop, rfl⟩ := CompileM.gives_pure.1 h
      obtain rfl := Option.some.inj hop
      obtain rfl := gives_forM_bind.1 hbind
      obtain ⟨ops, rfl, hchain⟩ :=
        gives_compileArguments (fun a ha => hargs a (List.mem_of_mem_drop ha)) hvalues
      exact H.var pos hgood hf hfs hplace.symm hempty hchain

theorem Builds.compileSet (hargs : ∀ a ∈ call.args, BuildsArg V (formsInWords false f.args) a)
    (hgood : good f) (hf : f.Is .set) (hfs : formsInForm false f ⊆ fs)
    (h : (compileSet call).Gives s (some op) s') : V fs s op s' := by
  unfold ShellOps.compileSet at h
  rw [scanNames_eq_scanWords] at h
  simp only [bind_assoc, pure_bind] at h
  obtain ⟨⟨names, place⟩, t, hscan, h⟩ := CompileM.gives_bind.1 h
  have hcheck : ∀ {n pos t u t'}, (discard (CompileM.mustResolve n pos)).Gives t u t' →
      (t.scopes.type? n).isSome ∧ t' = t.looked n := by
    intro n pos t u t' h
    rw [CompileM.discard_eq] at h
    obtain ⟨ty, t'', hn, h⟩ := CompileM.gives_bind.1 h
    obtain ⟨-, rfl⟩ := CompileM.gives_pure.1 h
    obtain ⟨hty, rfl⟩ := CompileM.gives_resolve.1 (CompileM.gives_mustResolve.1 hn)
    rw [ScopeStack.resolve_fst] at hty
    exact ⟨by rw [← hty]; rfl, rfl⟩
  obtain ⟨hnames, rfl⟩ := gives_scanWords (fun s n => (s.type? n).isSome) CompileState.looked
    (fun _ _ => rfl) hcheck hscan
  cases names with
  | nil => simp at h
  | cons n names =>
    simp only [List.isEmpty_cons, Bool.false_eq_true, if_false] at h
    cases place with
    | none => exact absurd h CompileM.gives_reject
    | some pos =>
      obtain ⟨valuesOp, u, hvalues, h⟩ := CompileM.gives_bind.1 h
      obtain ⟨hop, rfl⟩ := CompileM.gives_pure.1 h
      obtain rfl := Option.some.inj hop
      obtain ⟨ops, rfl, hchain⟩ :=
        gives_compileArguments (fun a ha => hargs a (List.mem_of_mem_drop ha)) hvalues
      exact H.set _ _ hgood hf hfs (List.cons_ne_nil n names) hnames hchain

theorem Builds.compileDel (hf : f.Is .del) (hfs : formsInForm false f ⊆ fs)
    (h : (compileDel call).Gives s (some op) s') : V fs s op s' := by
  unfold ShellOps.compileDel at h
  obtain ⟨names, t, hnames, h⟩ := CompileM.gives_bind.1 h
  obtain ⟨frame, hframe, rfl⟩ := gives_unbindNames hnames
  cases names with
  | nil =>
    obtain ⟨_, _, hreject, -⟩ := CompileM.gives_bind.1 h
    exact absurd hreject CompileM.gives_reject
  | cons n names =>
    simp only [List.isEmpty_cons, Bool.false_eq_true, if_false] at h
    obtain ⟨hop, rfl⟩ := CompileM.gives_pure.1 h
    obtain rfl := Option.some.inj hop
    exact H.del _ hf hfs (List.cons_ne_nil n names) hframe

theorem Builds.compileFn (hargs : ∀ a ∈ call.args, BuildsArg V (formsInWords false f.args) a)
    (hf : f.Is .fn) (hfn : (env.registry.findSpecial (utf8 BindingForm.fn.name)).isSome)
    (hfs : formsInForm false f ⊆ fs) (h : (compileFn call).Gives s (some op) s') : V fs s op s' := by
  obtain ⟨nameArg, bodyArg, _, n, _, _, _, step, closure, hwords, -, -, -, -, hstep, hclosure, hop⟩ :=
    gives_compileFn h
  obtain rfl := Option.some.inj hop
  have hbody : bodyArg ∈ call.args := by simp [hwords]
  obtain ⟨params, captures, chunk, closurePos, rfl, hV⟩ := (hargs bodyArg hbody).closure hstep hclosure
  exact H.fn _ hf hfn hfs hV

/-- The op of each of the four forms that bind names. -/
theorem Builds.bindingForm (hargs : ∀ a ∈ call.args, BuildsArg V (formsInWords false f.args) a)
    (hwords : call.args.map (·.word) = f.args) (hpos : call.pos = f.pos) (hgood : good f)
    {b : BindingForm} (hf : f.Is b) (hb : (env.registry.findSpecial (utf8 b.name)).isSome)
    (hfs : formsInForm false f ⊆ fs) (h : (b.compile call).Gives s (some op) s') : V fs s op s' := by
  cases b with
  | var => exact H.compileVar hargs hwords hpos hgood hf hfs h
  | set => exact H.compileSet hargs hgood hf hfs h
  | del => exact H.compileDel hf hfs h
  | fn => exact H.compileFn hargs hf hb hfs h

/-! ### Forms -/

/-- A closure literal whose captures are passed on. -/
theorem Builds.forwarding {params : List Name} {pos : Pos} {gs : List Form}
    {body : CompileM (List (ValuesOp F))} (hcoherent : KeepsCoherent body)
    (hbody : ∀ {s ops s'}, deep = true → body.Gives s ops s' → Chain (V gs) s ops s')
    (h : (forwarding (closureAround env.options pos params body)).Gives s op s') :
    ∃ captures chunk, op = .closure params captures chunk pos ∧ V fs s op s' := by
  obtain ⟨c, t, hc, rfl, rfl⟩ := gives_forwarding.1 h
  obtain ⟨hscopes, hcaptures, hvisible⟩ := hcoherent.state_after_closure hc
  obtain ⟨pipelines, u, scopes, hb, -, rfl, rfl⟩ := gives_closureAround hc
  obtain rfl : scopes = s.scopes := hscopes
  exact ⟨_, _, rfl, H.closure params pos (fun hdeep => hbody hdeep hb) hvisible⟩

omit H in
/-- A command word that compiles stands for a special form of the registry only if its text is the
name of that form. -/
theorem is_of_compileCommand (hcore : env.registry.CoreOnly) {commandOp : ValuesOp F}
    {entry : Builtin (SpecialForm F)}
    (h : (compileCommand env f.command).Gives s (commandOp, .special entry) s') :
    ∃ b : BindingForm, entry.body = b.compile ∧ f.Is b ∧
      (env.registry.findSpecial (utf8 b.name)).isSome := by
  obtain ⟨w, hf, ⟨pos, text, hw, t, -, hcommand⟩ | ⟨pos, literal, -, hc, -⟩⟩ := gives_compileCommand h
  · obtain ⟨hc, -⟩ := gives_resolveCommand.1 hcommand
    obtain ⟨-, hentry⟩ := commandOf_eq_special hc.symm
    obtain ⟨b, rfl, hb⟩ := hcore text entry hentry
    refine ⟨b, hb, ?_, by rw [hentry]; rfl⟩
    simp [Form.Is, hf, Word.plain?, hw]
  · cases hc

/-- A form, once its command and its redirections are compiled. -/
theorem Builds.finishCommand {commandOp args : ValuesOp F} {c : Command F} {resolution : Resolution F}
    {portOps : List (PortOp F)} {t : CompileState} (hgood : good f) (hfs : formsInForm false f ⊆ fs)
    (hhead : FormHead env V Q f fs s commandOp c portOps t)
    (hspecial : ∀ entry, c = .special entry → ∃ b : BindingForm, entry.body = b.compile ∧ f.Is b ∧
      (env.registry.findSpecial (utf8 b.name)).isSome)
    (hargs : ∀ a ∈ call.args, BuildsArg V (formsInWords false f.args) a)
    (hwords : call.args.map (·.word) = f.args) (hpos : call.pos = f.pos)
    (hargsPos : call.argsPos = f.argsPos) (h : (finishCommand c call).Gives t (args, resolution) s') :
    P fs s ⟨commandOp, args, portTable f.redirections portOps, resolution, env.options.unsetPorts,
      f.pos⟩ s' := by
  unfold ShellOps.finishCommand at h
  cases c with
  | plain r =>
    obtain ⟨argsOp, u, hop, h⟩ := CompileM.gives_bind.1 h
    obtain ⟨heq, rfl⟩ := CompileM.gives_pure.1 h
    obtain ⟨rfl, rfl⟩ := Prod.mk.inj heq
    obtain ⟨ops, rfl, hchain⟩ := gives_compileArguments hargs hop
    rw [hargsPos]
    exact H.plainForm hgood hfs hhead hchain
  | special entry =>
    obtain ⟨b, hb, hf, hfound⟩ := hspecial entry rfl
    obtain ⟨special, u, hop, h⟩ := CompileM.gives_bind.1 h
    rw [hb] at hop
    cases special with
    | none => exact absurd h CompileM.gives_malformed
    | some op =>
      obtain ⟨heq, rfl⟩ := CompileM.gives_pure.1 h
      obtain ⟨rfl, rfl⟩ := Prod.mk.inj heq
      exact H.specialForm hgood hfs hhead (H.bindingForm hargs hwords hpos hgood hf hfound hfs hop)

/-- The op of a word, once its parts are compiled. -/
theorem Builds.applySigil {word : ValuesOp F} {sigil : Option UInt8} {pos : Pos} {t : CompileState}
    (hword : V fs s word t) (h : (applySigil env pos sigil word).Gives t op s') : V fs s op s' := by
  cases sigil with
  | none =>
    obtain ⟨rfl, rfl⟩ := CompileM.gives_pure.1 h
    exact hword
  | some b =>
    obtain ⟨_, u, hcount, h⟩ := CompileM.gives_bind.1 h
    obtain ⟨c, v, hc, h⟩ := CompileM.gives_bind.1 h
    obtain rfl := CompileM.gives_count.1 hcount
    obtain ⟨rfl, rfl⟩ := gives_resolveCommand.1 hc
    cases hcommand : commandOf env.registry [b] (t.scopes.type? (functionName [b])) with
    | special entry => simp [hcommand] at h
    | plain resolution =>
      simp only [hcommand] at h
      obtain ⟨rfl, rfl⟩ := CompileM.gives_pure.1 h
      exact H.sigil b pos hword hcommand

omit H in
/-- Checking descriptors leaves the state alone. -/
theorem gives_checkDescriptor {o : Options} {fd : Int} {pos : Pos} {u : Unit}
    (h : (checkDescriptor o fd pos).Gives s u s') : fd ≤ o.maxFd ∧ s' = s := by
  unfold checkDescriptor at h
  by_cases hfd : o.maxFd < fd
  · rw [if_pos hfd] at h
    exact absurd h CompileM.gives_reject
  · rw [if_neg hfd] at h
    exact ⟨by omega, (CompileM.gives_pure.1 h).2⟩

omit H in
theorem gives_checkRedirections {o : Options} {u : Unit} : ∀ {rs : List Redirection} {s : CompileState},
    (checkRedirections o rs).Gives s u s' → (∀ r ∈ rs, 0 ≤ r.fd ∧ r.fd ≤ o.maxFd) ∧ s' = s
  | [], _, h => ⟨List.forall_mem_nil _, (CompileM.gives_pure.1 h).2⟩
  | r :: rs, s, h => by
    unfold checkRedirections at h
    by_cases hr : r.fd < 0
    · simp [hr] at h
    · simp only [hr, if_false] at h
      obtain ⟨_, t, hd, hrest⟩ := CompileM.gives_bind.1 h
      obtain ⟨hle, rfl⟩ := gives_checkDescriptor hd
      obtain ⟨hchecked, rfl⟩ := gives_checkRedirections hrest
      exact ⟨List.forall_mem_cons.2 ⟨⟨by omega, hle⟩, hchecked⟩, rfl⟩

omit H in
theorem ne_nil_of_compileParts {parts : List Part} {ops : List (ValuesOp F)}
    (hparts : ¬ parts.isEmpty) (h : (compileParts env parts).Gives s ops s') : ops ≠ [] := by
  cases parts with
  | nil => simp at hparts
  | cons part parts =>
    simp only [compileParts, CompileM.gives_bind, CompileM.gives_pure] at h
    obtain ⟨op, t, -, ops', u, -, rfl, -⟩ := h
    exact List.cons_ne_nil op ops'

end

/-! ### Trees -/

section

variable {env : Env F} {deep : Bool} {good : Form → Prop}
variable {V : List Form → CompileState → ValuesOp F → CompileState → Prop}
variable {P : List Form → CompileState → FormOp F → CompileState → Prop}
variable {Q : List Form → CompileState → PortOp F → CompileState → Prop}

mutual

/-- **The pipelines of a chunk.** A property that respects the ways in which ops are built holds of
the ops of any pipelines that compile. -/
theorem compilePipelines_builds (H : Builds env V Q deep good P)
    (hcore : env.registry.CoreOnly) : ∀ ps {fs : List Form}, Fits deep good fs (formsInPipelines · ps) →
    ∀ {s ops s'}, (compilePipelines env ps).Gives s ops s' → Chain (V fs) s ops s'
  | [], fs, _, s, ops, s', h => by
    simp only [compilePipelines, CompileM.gives_pure] at h
    obtain ⟨rfl, rfl⟩ := h
    exact .nil
  | p :: ps, fs, hfits, s, ops, s', h => by
    simp only [formsInPipelines, fits_append] at hfits
    simp only [compilePipelines, CompileM.gives_bind, CompileM.gives_pure] at h
    obtain ⟨op, t, hop, ops', u, hops, rfl, rfl⟩ := h
    obtain ⟨stages, rfl, hV⟩ := compilePipeline_builds H hcore p hfits.1 hop
    exact .cons hV (compilePipelines_builds H hcore ps hfits.2 hops)
termination_by structural ps => ps

theorem forwardingClosure_builds (H : Builds env V Q deep good P)
    (hcore : env.registry.CoreOnly) : ∀ c {fs : List Form}, Fits deep good fs (formsInClosure · c) →
    ∀ {s op s'}, (forwarding (compileClosure env c)).Gives s op s' →
      ∃ params captures chunk pos, op = .closure params captures chunk pos ∧ V fs s op s'
  | ⟨pos, params, ⟨_, pipelines⟩⟩, fs, hfits, s, op, s', h => by
    simp only [compileClosure] at h
    have hcoherent := compilePipelines_keepsCoherent env hcore pipelines
    have hbody : ∀ {s ops s'}, deep = true → (compilePipelines env pipelines).Gives s ops s' →
        Chain (V (formsInPipelines false pipelines)) s ops s' := by
      intro s ops s' hdeep hgives
      refine compilePipelines_builds H hcore pipelines ⟨?_, List.Subset.refl _⟩ hgives
      simpa [formsInClosure, hdeep] using hfits.good
    obtain ⟨captures, chunk, hop, hV⟩ := H.forwarding hcoherent hbody h
    exact ⟨params, captures, chunk, pos, hop, hV⟩
termination_by structural c => c

theorem compilePipeline_builds (H : Builds env V Q deep good P)
    (hcore : env.registry.CoreOnly) : ∀ p {fs : List Form}, Fits deep good fs (formsInPipeline · p) →
    ∀ {s op s'}, (compilePipeline env p).Gives s op s' →
      ∃ stages, op = .pipeline stages p.pos ∧ V fs s op s'
  | ⟨pos, forms⟩, fs, hfits, s, op, s', h => by
    simp only [formsInPipeline] at hfits
    simp only [compilePipeline] at h
    obtain ⟨-, t, ht, rfl⟩ := CompileM.gives_nested.1 h
    simp only [CompileM.gives_bind, CompileM.gives_pure] at ht
    obtain ⟨stages, u, hstages, rfl, rfl⟩ := ht
    exact ⟨_, rfl, H.nested (H.pipeline pos (compileForms_builds H hcore forms hfits hstages))⟩
termination_by structural p => p

theorem compileForms_builds (H : Builds env V Q deep good P)
    (hcore : env.registry.CoreOnly) : ∀ forms {fs : List Form}, Fits deep good fs (formsInForms · forms) →
    ∀ {s ops s'}, (compileForms env forms).Gives s ops s' → Chain (P fs) s ops s'
  | [], fs, _, s, ops, s', h => by
    simp only [compileForms, CompileM.gives_pure] at h
    obtain ⟨rfl, rfl⟩ := h
    exact .nil
  | f :: forms, fs, hfits, s, ops, s', h => by
    simp only [formsInForms, fits_append] at hfits
    simp only [compileForms, CompileM.gives_bind, CompileM.gives_pure] at h
    obtain ⟨op, t, hop, ops', u, hops, rfl, rfl⟩ := h
    exact .cons (compileForm_builds H hcore f hfits.1 hop)
      (compileForms_builds H hcore forms hfits.2 hops)
termination_by structural forms => forms

theorem compileForm_builds (H : Builds env V Q deep good P)
    (hcore : env.registry.CoreOnly) : ∀ f {fs : List Form}, Fits deep good fs (formsInForm · f) →
    ∀ {s op s'}, (compileForm env f).Gives s op s' → P fs s op s'
  | ⟨pos, command, argsPos, args, redirections⟩, fs, hfits, s, op, s', h => by
    have hgood := hfits.good _ (mem_formsInForm deep _)
    have hlisted := hfits.listed
    simp only [formsInForm, fits_append] at hfits
    obtain ⟨-, hcommand, hredirections, hwords⟩ := hfits
    simp only [compileForm] at h
    obtain ⟨-, t, ht, rfl⟩ := CompileM.gives_nested.1 h
    obtain ⟨_, t₀, hcount, ht⟩ := CompileM.gives_bind.1 ht
    obtain ⟨⟨commandOp, c⟩, t₁, hc, ht⟩ := CompileM.gives_bind.1 ht
    obtain ⟨_, t₂, hcheck, ht⟩ := CompileM.gives_bind.1 ht
    obtain ⟨ports, t₃, hports, ht⟩ := CompileM.gives_bind.1 ht
    obtain ⟨⟨argsOp, resolution⟩, t₄, hfinish, ht⟩ := CompileM.gives_bind.1 ht
    obtain ⟨rfl, rfl⟩ := CompileM.gives_pure.1 ht
    obtain rfl := CompileM.gives_count.1 hcount
    obtain ⟨hchecked, rfl⟩ := gives_checkRedirections hcheck
    obtain ⟨u, hV, hfound⟩ := compileCommand_builds H hcore command hcommand hc
    obtain ⟨portOps, hchain, hfor, rfl⟩ :=
      compileRedirections_builds H hcore redirections _ hredirections.relist hports
    refine H.nestedForm (H.finishCommand (f := ⟨pos, command, argsPos, args, redirections⟩) hgood hlisted
      ⟨⟨u, _, hV, hfound, hchain⟩, hfor, hchecked⟩ ?_ (compileArgs_builds H hcore args hwords.relist)
      (words_compileArgs env args) rfl rfl hfinish)
    rintro entry rfl
    exact is_of_compileCommand hcore hc
termination_by structural f => f

theorem compileCommand_builds (H : Builds env V Q deep good P)
    (hcore : env.registry.CoreOnly) : ∀ w {fs : List Form}, Fits deep good fs (formsInWord? · w) →
    ∀ {s op c s'}, (compileCommand env w).Gives s (op, c) s' →
      ∃ t, V fs s op t ∧ CommandFound env.registry op t c s'
  | none, _, _, _, _, _, _, h => absurd h CompileM.gives_malformed
  | some ⟨pos, none, [⟨_, .string p text, none⟩]⟩, fs, _, s, op, c, s', h => by
    simp only [compileCommand, commandHead, compilePrimary] at h
    obtain ⟨op', t, hop, h⟩ := CompileM.gives_bind.1 h
    obtain ⟨c', u, hc, h⟩ := CompileM.gives_bind.1 h
    obtain ⟨heq, rfl⟩ := CompileM.gives_pure.1 h
    obtain ⟨rfl, rfl⟩ := Prod.mk.inj heq
    obtain ⟨-, v, hv, rfl⟩ := CompileM.gives_nested.1 hop
    obtain ⟨rfl, rfl⟩ := CompileM.gives_pure.1 hv
    obtain ⟨rfl, rfl⟩ := gives_resolveCommand.1 hc
    exact ⟨_, H.nested (H.string text p), .text text p _⟩
  | some ⟨pos, none, [⟨_, .closure p (some literal), none⟩]⟩, fs, hfits, s, op, c, s', h => by
    simp only [formsInWord?, formsInWord, formsInParts, formsInPart, formsInPrimary,
      List.append_nil] at hfits
    simp only [compileCommand, commandHead, compilePrimary] at h
    obtain ⟨op', t, hop, h⟩ := CompileM.gives_bind.1 h
    obtain ⟨heq, rfl⟩ := CompileM.gives_pure.1 h
    obtain ⟨rfl, rfl⟩ := Prod.mk.inj heq
    obtain ⟨-, v, hv, rfl⟩ := CompileM.gives_nested.1 hop
    obtain ⟨params, captures, chunk, pos, rfl, hV⟩ := forwardingClosure_builds H hcore literal hfits hv
    exact ⟨_, H.nested hV, .closure ..⟩
  | some ⟨_, none, [⟨_, .closure p none, none⟩]⟩, _, _, _, _, _, _, h => by
    simp only [compileCommand, commandHead, compilePrimary] at h
    obtain ⟨_, _, hop, -⟩ := CompileM.gives_bind.1 h
    obtain ⟨-, _, hmissing, -⟩ := CompileM.gives_nested.1 hop
    exact absurd hmissing CompileM.gives_malformed
  | some ⟨_, none, [⟨_, .variable .., none⟩]⟩, _, _, _, _, _, _, h
  | some ⟨_, none, [⟨_, .table .., none⟩]⟩, _, _, _, _, _, _, h
  | some ⟨_, none, [⟨_, .list .., none⟩]⟩, _, _, _, _, _, _, h
  | some ⟨_, none, [⟨_, .chanCapture .., none⟩]⟩, _, _, _, _, _, _, h
  | some ⟨_, none, [⟨_, .statusCapture .., none⟩]⟩, _, _, _, _, _, _, h
  | some ⟨_, none, [⟨_, .unknown _, none⟩]⟩, _, _, _, _, _, _, h
  | some ⟨_, none, []⟩, _, _, _, _, _, _, h
  | some ⟨_, none, ⟨_, _, some _⟩ :: _⟩, _, _, _, _, _, _, h
  | some ⟨_, none, ⟨_, _, none⟩ :: _ :: _⟩, _, _, _, _, _, _, h
  | some ⟨_, some _, _⟩, _, _, _, _, _, _, h => absurd h CompileM.gives_reject
termination_by structural w => w

theorem compileArgs_builds (H : Builds env V Q deep good P)
    (hcore : env.registry.CoreOnly) : ∀ ws {gs : List Form}, Fits deep good gs (formsInWords · ws) →
    ∀ a ∈ compileArgs env ws, BuildsArg V gs a
  | [], gs, _, a, ha => by simp [compileArgs] at ha
  | w :: ws, gs, hfits, a, ha => by
    simp only [formsInWords, fits_append] at hfits
    simp only [compileArgs, List.mem_cons] at ha
    rcases ha with rfl | ha
    · exact compileArg_builds H hcore w hfits.1
    · exact compileArgs_builds H hcore ws hfits.2 a ha
termination_by structural ws => ws

theorem compileArg_builds (H : Builds env V Q deep good P)
    (hcore : env.registry.CoreOnly) : ∀ w {gs : List Form}, Fits deep good gs (formsInWord? · w) →
    BuildsArg V gs (compileArg env w)
  | none, _, _ => by
    simp only [compileArg]
    exact ⟨fun h => absurd h CompileM.gives_malformed, nofun⟩
  | some w, _, hfits => by
    simp only [formsInWord?] at hfits
    simp only [compileArg]
    exact ⟨compileWord_builds H hcore w hfits, compileLiteral_builds H hcore w hfits⟩
termination_by structural w => w

theorem compileLiteral_builds (H : Builds env V Q deep good P)
    (hcore : env.registry.CoreOnly) : ∀ w {gs : List Form}, Fits deep good gs (formsInWord · w) →
    ∀ {step s op s'}, compileLiteral? env w = some step → (forwarding step).Gives s op s' →
      ∃ params captures chunk pos, op = .closure params captures chunk pos ∧ V gs s op s'
  | ⟨_, _, ⟨_, .closure _ (some c), _⟩ :: _⟩, gs, hfits, step, s, op, s', hstep, h => by
    simp only [formsInWord, formsInParts, formsInPart, formsInPrimary, fits_append] at hfits
    simp only [compileLiteral?, Option.some.injEq] at hstep
    rw [← hstep] at h
    exact forwardingClosure_builds H hcore c hfits.1.1 h
  | ⟨_, _, []⟩, _, _, _, _, _, _, h, _ | ⟨_, _, ⟨_, .closure _ none, _⟩ :: _⟩, _, _, _, _, _, _, h, _
  | ⟨_, _, ⟨_, .string .., _⟩ :: _⟩, _, _, _, _, _, _, h, _
  | ⟨_, _, ⟨_, .variable .., _⟩ :: _⟩, _, _, _, _, _, _, h, _
  | ⟨_, _, ⟨_, .table .., _⟩ :: _⟩, _, _, _, _, _, _, h, _
  | ⟨_, _, ⟨_, .list .., _⟩ :: _⟩, _, _, _, _, _, _, h, _
  | ⟨_, _, ⟨_, .chanCapture .., _⟩ :: _⟩, _, _, _, _, _, _, h, _
  | ⟨_, _, ⟨_, .statusCapture .., _⟩ :: _⟩, _, _, _, _, _, _, h, _
  | ⟨_, _, ⟨_, .unknown _, _⟩ :: _⟩, _, _, _, _, _, _, h, _ => by simp [compileLiteral?] at h
termination_by structural w => w

theorem compileRedirections_builds (H : Builds env V Q deep good P)
    (hcore : env.registry.CoreOnly) : ∀ rs ports {fs : List Form},
    Fits deep good fs (formsInRedirections · rs) →
    ∀ {s ports' s'}, (compileRedirections env rs ports).Gives s ports' s' →
      ∃ ops, Chain (Q fs) s ops s' ∧ List.Forall₂ (PortFor env.options) rs ops ∧
        ports' = fillPorts rs ops ports
  | [], ports, fs, _, s, ports', s', h => by
    simp only [compileRedirections, CompileM.gives_pure] at h
    obtain ⟨rfl, rfl⟩ := h
    exact ⟨[], .nil, .nil, rfl⟩
  | r :: rs, ports, fs, hfits, s, ports', s', h => by
    simp only [formsInRedirections, fits_append] at hfits
    simp only [compileRedirections, CompileM.gives_bind] at h
    obtain ⟨op, t, hop, hrest⟩ := h
    obtain ⟨hQ, hfor⟩ := compileRedirection_builds H hcore r hfits.1 hop
    obtain ⟨ops, hchain, hfors, rfl⟩ := compileRedirections_builds H hcore rs _ hfits.2 hrest
    exact ⟨op :: ops, .cons hQ hchain, .cons hfor hfors, rfl⟩
termination_by structural rs => rs

theorem compileRedirection_builds (H : Builds env V Q deep good P)
    (hcore : env.registry.CoreOnly) : ∀ r {fs : List Form},
    Fits deep good fs (formsInRedirection · r) →
    ∀ {s op s'}, (compileRedirection env r).Gives s op s' → Q fs s op s' ∧ PortFor env.options r op
  | ⟨pos, fd, .close⟩, fs, _, s, op, s', h => by
    simp only [compileRedirection, CompileM.gives_pure] at h
    obtain ⟨rfl, rfl⟩ := h
    exact ⟨H.closePort pos, .close pos fd⟩
  | ⟨pos, fd, .dup source⟩, fs, _, s, op, s', h => by
    simp only [compileRedirection] at h
    by_cases hsource : source < 0
    · simp [hsource] at h
    · simp only [hsource, if_false, CompileM.gives_bind, CompileM.gives_pure] at h
      obtain ⟨_, t, ht, rfl, rfl⟩ := h
      obtain ⟨hle, rfl⟩ := gives_checkDescriptor ht
      exact ⟨H.dupPort pos (by omega) hle, .dup pos fd source⟩
  | ⟨_, _, .file _ none⟩, _, _, _, _, _, h => absurd h CompileM.gives_malformed
  | ⟨pos, fd, .file flags (some filename)⟩, fs, hfits, s, op, s', h => by
    simp only [formsInRedirection] at hfits
    simp only [compileRedirection, CompileM.gives_bind, CompileM.gives_pure] at h
    obtain ⟨word, t, hword, rfl, rfl⟩ := h
    exact ⟨H.filePort flags pos (compileWord_builds H hcore filename hfits hword),
      .file pos fd flags filename word⟩
  | ⟨_, _, .unknown⟩, _, _, _, _, _, h => absurd h CompileM.gives_malformed
termination_by structural r => r

theorem compileWords_builds (H : Builds env V Q deep good P)
    (hcore : env.registry.CoreOnly) : ∀ ws {fs : List Form}, Fits deep good fs (formsInWords · ws) →
    ∀ {s ops s'}, (compileWords env ws).Gives s ops s' → Chain (V fs) s ops s'
  | [], fs, _, s, ops, s', h => by
    simp only [compileWords, CompileM.gives_pure] at h
    obtain ⟨rfl, rfl⟩ := h
    exact .nil
  | none :: _, _, _, _, _, _, h => by
    simp only [compileWords] at h
    exact absurd h CompileM.gives_malformed
  | some w :: ws, fs, hfits, s, ops, s', h => by
    simp only [formsInWords, formsInWord?, fits_append] at hfits
    simp only [compileWords, CompileM.gives_bind, CompileM.gives_pure] at h
    obtain ⟨op, t, hop, ops', u, hops, rfl, rfl⟩ := h
    exact .cons (compileWord_builds H hcore w hfits.1 hop) (compileWords_builds H hcore ws hfits.2 hops)
termination_by structural ws => ws

theorem compileWord_builds (H : Builds env V Q deep good P)
    (hcore : env.registry.CoreOnly) : ∀ w {fs : List Form}, Fits deep good fs (formsInWord · w) →
    ∀ {s op s'}, (compileWord env w).Gives s op s' → V fs s op s'
  | ⟨pos, sigil, parts⟩, fs, hfits, s, op, s', h => by
    simp only [formsInWord] at hfits
    simp only [compileWord] at h
    obtain ⟨-, t, ht, rfl⟩ := CompileM.gives_nested.1 h
    refine H.nested ?_
    by_cases hempty : parts.isEmpty
    · rw [if_pos hempty] at ht
      obtain ⟨_, _, hfail, -⟩ := CompileM.gives_bind.1 ht
      exact absurd hfail CompileM.gives_malformed
    · rw [if_neg hempty] at ht
      obtain ⟨ops, u, hops, ht⟩ := CompileM.gives_bind.1 ht
      have hchain := compileParts_builds H hcore parts hfits hops
      exact H.applySigil (H.word pos (ne_nil_of_compileParts hempty hops) hchain) ht
termination_by structural w => w

theorem compileParts_builds (H : Builds env V Q deep good P)
    (hcore : env.registry.CoreOnly) : ∀ ps {fs : List Form}, Fits deep good fs (formsInParts · ps) →
    ∀ {s ops s'}, (compileParts env ps).Gives s ops s' → Chain (V fs) s ops s'
  | [], fs, _, s, ops, s', h => by
    simp only [compileParts, CompileM.gives_pure] at h
    obtain ⟨rfl, rfl⟩ := h
    exact .nil
  | p :: ps, fs, hfits, s, ops, s', h => by
    simp only [formsInParts, fits_append] at hfits
    simp only [compileParts, CompileM.gives_bind, CompileM.gives_pure] at h
    obtain ⟨op, t, hop, ops', u, hops, rfl, rfl⟩ := h
    exact .cons (compilePart_builds H hcore p hfits.1 hop) (compileParts_builds H hcore ps hfits.2 hops)
termination_by structural ps => ps

theorem compilePart_builds (H : Builds env V Q deep good P)
    (hcore : env.registry.CoreOnly) : ∀ p {fs : List Form}, Fits deep good fs (formsInPart · p) →
    ∀ {s op s'}, (compilePart env p).Gives s op s' → V fs s op s'
  | ⟨_, left, none⟩, fs, hfits, s, op, s', h => by
    simp only [formsInPart, fits_append] at hfits
    simp only [compilePart] at h
    exact compilePrimary_builds H hcore left hfits.1 h
  | ⟨_, left, some index⟩, fs, hfits, s, op, s', h => by
    simp only [formsInPart, formsInWord?, fits_append] at hfits
    simp only [compilePart, CompileM.gives_bind, CompileM.gives_pure] at h
    obtain ⟨leftOp, t, hleft, indexOp, u, hindex, rfl, rfl⟩ := h
    exact H.indexed _ (compilePrimary_builds H hcore left hfits.1 hleft)
      (compileWord_builds H hcore index hfits.2 hindex)
termination_by structural p => p

theorem compilePairs_builds (H : Builds env V Q deep good P)
    (hcore : env.registry.CoreOnly) : ∀ ps {fs : List Form}, Fits deep good fs (formsInPairs · ps) →
    ∀ {s ops s'}, (compilePairs env ps).Gives s ops s' → Chain (InPairs (V fs)) s ops s'
  | [], fs, _, s, ops, s', h => by
    simp only [compilePairs, CompileM.gives_pure] at h
    obtain ⟨rfl, rfl⟩ := h
    exact .nil
  | ⟨some key, some value⟩ :: rest, fs, hfits, s, ops, s', h => by
    simp only [formsInPairs, formsInWord?, fits_append] at hfits
    simp only [compilePairs, CompileM.gives_bind, CompileM.gives_pure] at h
    obtain ⟨keyOp, t, hkey, valueOp, u, hvalue, ops', v, hops, rfl, rfl⟩ := h
    have hpair : InPairs (V fs) s (keyOp, valueOp) u :=
      ⟨t, compileWord_builds H hcore key hfits.1 hkey, compileWord_builds H hcore value hfits.2.1 hvalue⟩
    exact .cons hpair (compilePairs_builds H hcore rest hfits.2.2 hops)
  | ⟨none, _⟩ :: _, _, _, _, _, _, h => absurd h CompileM.gives_malformed
  | ⟨some _, none⟩ :: _, _, _, _, _, _, h => absurd h CompileM.gives_malformed
termination_by structural ps => ps

theorem compilePrimary_builds (H : Builds env V Q deep good P)
    (hcore : env.registry.CoreOnly) : ∀ p {fs : List Form}, Fits deep good fs (formsInPrimary · p) →
    ∀ {s op s'}, (compilePrimary env p).Gives s op s' → V fs s op s'
  | .string pos text, fs, _, s, op, s', h => by
    simp only [compilePrimary] at h
    obtain ⟨-, t, ht, rfl⟩ := CompileM.gives_nested.1 h
    obtain ⟨rfl, rfl⟩ := CompileM.gives_pure.1 ht
    exact H.nested (H.string text pos)
  | .variable pos name, fs, _, s, op, s', h => by
    simp only [compilePrimary] at h
    obtain ⟨-, t, ht, rfl⟩ := CompileM.gives_nested.1 h
    simp only [CompileM.gives_bind, CompileM.gives_count, CompileM.gives_pure] at ht
    obtain ⟨ty, u, hu, _, v, rfl, rfl, rfl⟩ := ht
    obtain ⟨hty, rfl⟩ := CompileM.gives_resolve.1 (CompileM.gives_mustResolve.1 hu)
    rw [ScopeStack.resolve_fst] at hty
    exact H.nested (H.reference pos hty.symm)
  | .table pos items pairs, fs, hfits, s, op, s', h => by
    simp only [formsInPrimary, fits_append] at hfits
    simp only [compilePrimary] at h
    obtain ⟨-, t, ht, rfl⟩ := CompileM.gives_nested.1 h
    obtain ⟨itemOps, u, hitems, ht⟩ := CompileM.gives_bind.1 ht
    obtain ⟨pairOps, v, hpairs, ht⟩ := CompileM.gives_bind.1 ht
    simp only [ValuesOp.table?, List.length_map, if_true] at ht
    obtain ⟨rfl, rfl⟩ := CompileM.gives_pure.1 ht
    exact H.nested (H.table pos (compileWords_builds H hcore items hfits.1 hitems)
      (compilePairs_builds H hcore pairs hfits.2 hpairs))
  | .closure pos none, _, _, _, _, _, h => by
    simp only [compilePrimary] at h
    obtain ⟨-, _, ht, -⟩ := CompileM.gives_nested.1 h
    exact absurd ht CompileM.gives_malformed
  | .closure pos (some c), fs, hfits, s, op, s', h => by
    simp only [formsInPrimary] at hfits
    simp only [compilePrimary] at h
    obtain ⟨-, t, ht, rfl⟩ := CompileM.gives_nested.1 h
    obtain ⟨_, _, _, _, -, hV⟩ := forwardingClosure_builds H hcore c hfits ht
    exact H.nested hV
  | .list pos itemsPos items, fs, hfits, s, op, s', h => by
    simp only [formsInPrimary] at hfits
    simp only [compilePrimary] at h
    obtain ⟨-, t, ht, rfl⟩ := CompileM.gives_nested.1 h
    simp only [CompileM.gives_bind, CompileM.gives_pure] at ht
    obtain ⟨ops, u, hops, rfl, rfl⟩ := ht
    exact H.nested (H.spaced itemsPos (compileWords_builds H hcore items hfits hops))
  | .chanCapture pos none, _, _, _, _, _, h => by
    simp only [compilePrimary] at h
    obtain ⟨-, _, ht, -⟩ := CompileM.gives_nested.1 h
    exact absurd ht CompileM.gives_malformed
  | .chanCapture pos (some p), fs, hfits, s, op, s', h => by
    simp only [formsInPrimary] at hfits
    simp only [compilePrimary] at h
    obtain ⟨-, t, ht, rfl⟩ := CompileM.gives_nested.1 h
    simp only [CompileM.gives_bind, CompileM.gives_pure] at ht
    obtain ⟨inner, u, hinner, rfl, rfl⟩ := ht
    obtain ⟨stages, rfl, hV⟩ := compilePipeline_builds H hcore p hfits hinner
    exact H.nested (H.capture hV)
  | .statusCapture pos none, _, _, _, _, _, h => by
    simp only [compilePrimary] at h
    obtain ⟨-, _, ht, -⟩ := CompileM.gives_nested.1 h
    exact absurd ht CompileM.gives_malformed
  | .statusCapture pos (some p), fs, hfits, s, op, s', h => by
    simp only [formsInPrimary] at hfits
    simp only [compilePrimary] at h
    obtain ⟨-, t, ht, rfl⟩ := CompileM.gives_nested.1 h
    obtain ⟨_, -, hV⟩ := compilePipeline_builds H hcore p hfits ht
    exact H.nested hV
  | .unknown pos, _, _, _, _, _, h => by
    simp only [compilePrimary] at h
    obtain ⟨-, _, ht, -⟩ := CompileM.gives_nested.1 h
    exact absurd ht CompileM.gives_malformed
termination_by structural p => p
end

end

/-! ### Whole scripts -/

theorem gives_of_compile {c : Compiler F} {source : Source} {chunk : Chunk} {root : Frame}
    {op : ValuesOp F} {stats : Stats} (h : c.compile source chunk root = .ok ⟨.ok op, stats⟩) :
    ∃ ops s', (compilePipelines ⟨c.registry, c.options, source⟩ chunk.pipelines).Gives (.ofRoot root)
      ops s' ∧ op = .chunk ops chunk.pos ∧ stats = s'.stats := by
  rw [compile_eq] at h
  rcases hout : (compilePipelines ⟨c.registry, c.options, source⟩ chunk.pipelines).outcome (.ofRoot root)
    with ⟨(_ | _) | ops, s'⟩
  · simp [hout] at h
  · simp [hout] at h
  · obtain ⟨rfl, rfl⟩ : .chunk ops chunk.pos = op ∧ s'.stats = stats := by simpa [hout] using h
    exact ⟨ops, s', hout, rfl, rfl⟩

/-- Whether a script compiles, and to an op of some kind, can be computed. -/
theorem exists_of_compile (c : Compiler F) (source : Source) (chunk : Chunk) (root : Frame)
    (p : ValuesOp F → Bool)
    (h : ((c.compile source chunk root).toOption.bind (·.outcome.toOption)).any p) :
    ∃ op stats, c.compile source chunk root = .ok ⟨.ok op, stats⟩ ∧ p op := by
  rcases hc : c.compile source chunk root with e | ⟨e | op, stats⟩
  · simp [hc, Except.toOption] at h
  · simp [hc, Except.toOption] at h
  · exact ⟨op, stats, rfl, by simpa [hc, Except.toOption] using h⟩

/-- While a whole script is compiled there is only the root frame between its forms, so nothing is
captured. -/
theorem captures_of_compilePipelines {env : Env F} (hcore : env.registry.CoreOnly)
    {ps : List Pipeline} {root : Frame} {ops : List (ValuesOp F)} {s' : CompileState}
    (h : (compilePipelines env ps).Gives (.ofRoot root) ops s') : s'.captures = ∅ := by
  have hkeeps := compilePipelines_keepsCoherent env hcore ps
  have hcoherent := hkeeps.coherent (CompileState.coherent_ofRoot root)
  rw [show (compilePipelines env ps).outcome (.ofRoot root) = (.ok ops, s') from h] at hcoherent
  exact hcoherent.captures_eq_empty (hkeeps.outer h)

end ShellOps
