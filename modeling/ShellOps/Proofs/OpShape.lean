/-
# The shape of compiled ops

Running an op relies on the op having a certain shape: the parts it runs are there, a table has a value
for each key, the command of a form fits what it was resolved to, and so on. `AnyOp.Sound` says this of
one op, as far as it can be seen in the op, its parts and the forms of the script. It holds of every op
that stands anywhere in the op of a script (`AnyOp.Within`), in the code of closures, in the ops of special
forms and in the file names of ports too.

That is proved rule by rule: each way of building an op gives a sound op from sound ones (`soundly`).
-/
import Mathlib.Data.List.ReduceOption
import ShellOps.Proofs.PortTables

namespace ShellOps

variable {α F : Type}

/-! ### Every op of a tree -/

/-- An op of any kind. -/
inductive AnyOp (F : Type)
  | values (op : ValuesOp F)
  | form (op : FormOp F)
  | port (op : PortOp F)

/-- The ops that a values op is made of. -/
def ValuesOp.children : ValuesOp F → List (AnyOp F)
  | .missing | .string .. | .variable .. | .del .. => []
  | .compound ops _ | .spaced ops _ | .chunk ops _ => ops.map .values
  | .subscript left index _ => [.values left, .values index]
  | .table items keys values _ => .values items :: (keys ++ values).map .values
  | .closure _ _ op _ | .chanCapture op _ | .var _ op _ | .set _ op _ | .fn _ op _ => [.values op]
  | .pipeline stages _ => stages.reduceOption.map .form

/-- The ops that an op is made of. Where a values op is missing, `ValuesOp.missing` is listed; a port slot
that is not filled is left out. -/
def AnyOp.children : AnyOp F → List (AnyOp F)
  | .values op => op.children
  | .form op => .values op.command :: .values op.args :: .values op.resolution.op ::
      op.ports.reduceOption.map .port
  | .port (.file filename ..) => [.values filename]
  | .port _ => []

/-- The op `x` stands somewhere in `y`, or is `y`. -/
inductive AnyOp.Within (x : AnyOp F) : AnyOp F → Prop
  | self : Within x x
  | child {y z : AnyOp F} : Within x y → y ∈ z.children → Within x z

/-! ### The shape of one op -/

/-- The form is a `var` at `pos` that binds the names, and it has a word `=` exactly if there are values. -/
structure Form.Declares (f : Form) (names : List Name) (values : ValuesOp F) (pos : Pos) : Prop where
  is : f.Is .var
  pos : f.pos = pos
  names : f.names = names
  values : values = .missing ↔ ¬ f.Assigns

/-- What is asked of a values op that was compiled from a script with the given forms. Of its parts only
the values of a `var` may be missing, and they are exactly if its form has no `=`. -/
def ValuesOp.Sound (forms : List Form) : ValuesOp F → Prop
  | .missing | .string .. | .variable .. | .del .. => True
  | .var names values pos => ∃ f ∈ forms, f.Declares names values pos
  | .compound parts _ => 2 ≤ parts.length ∧ ∀ op ∈ parts, op ≠ .missing
  | .spaced ops _ | .chunk ops _ => ∀ op ∈ ops, op ≠ .missing
  | .subscript left index _ => left ≠ .missing ∧ index ≠ .missing
  | .table items keys values _ => items ≠ .missing ∧ keys.length = values.length ∧
      (∀ op ∈ keys, op ≠ .missing) ∧ ∀ op ∈ values, op ≠ .missing
  | .closure _ _ op _ | .set _ op _ | .fn _ op _ => op ≠ .missing
  | .chanCapture inner pos => ∃ stages, inner = .pipeline stages pos
  | .pipeline stages _ => ∀ stage ∈ stages, stage.isSome

/-- The resolution of a form fits the op of its command: what it holds is what its kind asks for, the
command is a closure literal or a string, and the string is the name of the builtin. -/
structure Resolution.Suits (r : Resolution F) (command : ValuesOp F) : Prop where
  special : r.special.isSome ↔ r.kind = .special
  specialOp : r.op ≠ .missing ↔ r.kind = .special
  function : r.function.isSome ↔ r.kind = .function
  closure : (∃ params captures chunk pos, command = .closure params captures chunk pos) ↔
    r.kind = .closure
  text : r.kind ≠ .closure → ∃ text pos, command = .string text pos ∧
    (∀ entry, r.function = some entry → entry.name = text) ∧
    ∀ entry, r.special = some entry → entry.name = text

/-- What is asked of a form op that was compiled under the options `o`. -/
structure FormOp.Sound (o : Options) (f : FormOp F) : Prop where
  suits : f.resolution.Suits f.command
  args : f.args = .missing ↔ f.resolution.kind = .special
  ports : PortsFit o.maxFd f.ports
  unset : f.unset = o.unsetPorts

/-- What is asked of a port op that was compiled under the options `o`. -/
def PortOp.Sound (o : Options) : PortOp F → Prop
  | .close _ => True
  | .dup source _ => 0 ≤ source ∧ source ≤ o.maxFd
  | .file filename _ mode _ => filename ≠ .missing ∧ mode = o.fileMode

/-- What is asked of an op that was compiled under the options `o` from a script with the given forms. -/
def AnyOp.Sound (o : Options) (forms : List Form) : AnyOp F → Prop
  | .values op => op.Sound forms
  | .form op => op.Sound o
  | .port op => op.Sound o

/-- Every op in the op is sound. -/
def AnyOp.SoundThroughout (o : Options) (forms : List Form) (y : AnyOp F) : Prop :=
  ∀ x : AnyOp F, x.Within y → x.Sound o forms

section

variable {o : Options} {forms : List Form}

theorem soundThroughout_of_children {y : AnyOp F} (h : y.Sound o forms)
    (hchildren : ∀ z ∈ y.children, z.SoundThroughout o forms) : y.SoundThroughout o forms := by
  intro x hx
  cases hx with
  | self => exact h
  | child hwithin hmem => exact hchildren _ hmem x hwithin

/-- The op is there, and every op in it is sound. -/
structure ValuesOp.Complete (o : Options) (forms : List Form) (op : ValuesOp F) : Prop where
  present : op ≠ .missing
  sound : (AnyOp.values op).SoundThroughout o forms

theorem missing_soundThroughout : (AnyOp.values (.missing : ValuesOp F)).SoundThroughout o forms :=
  soundThroughout_of_children trivial (List.forall_mem_nil _)

end

/-! ### Commands -/

namespace Resolution

variable {text : Bytes} {pos : Pos}

theorem suits_bare {kind : CommandKind} (h : kind = .userFunction ∨ kind = .external) :
    (bare kind : Resolution F).Suits (.string text pos) := by
  refine ⟨?_, ?_, ?_, ?_, fun _ => ⟨text, pos, rfl, ?_, ?_⟩⟩
  all_goals rcases h with rfl | rfl <;> simp [bare]

theorem suits_ofFunction {entry : Builtin F} (h : entry.name = text) :
    (ofFunction entry).Suits (.string text pos) := by
  refine ⟨?_, ?_, ?_, ?_, fun _ => ⟨text, pos, rfl, ?_, ?_⟩⟩
  all_goals simp [ofFunction, h]

theorem suits_ofSpecial {entry : Builtin Unit} {op : ValuesOp F} (h : entry.name = text)
    (hop : op ≠ .missing) : (ofSpecial entry op).Suits (.string text pos) := by
  refine ⟨?_, ?_, ?_, ?_, fun _ => ⟨text, pos, rfl, ?_, ?_⟩⟩
  all_goals simp [ofSpecial, h, hop]

theorem suits_closure (params : List Name) (captures : CaptureSet) (chunk : ValuesOp F) (pos : Pos) :
    (bare .closure : Resolution F).Suits (.closure params captures chunk pos) := by
  refine ⟨?_, ?_, ?_, ?_, ?_⟩
  all_goals simp [bare]

end Resolution

namespace Registry

/-- The registry comes from an empty one by registering builtins and taking them away. -/
inductive Built : Registry F → Prop
  | empty : Built .empty
  | registerFunction {r : Registry F} (n : Name) (body : F) : Built r → Built (r.registerFunction n body)
  | registerSpecial {r : Registry F} (n : Name) (body : SpecialForm F) :
    Built r → Built (r.registerSpecial n body)
  | unregisterFunction {r : Registry F} (n : Name) : Built r → Built (r.unregisterFunction n)
  | unregisterSpecial {r : Registry F} (n : Name) : Built r → Built (r.unregisterSpecial n)
  | clear {r : Registry F} : Built r → Built r.clear

theorem Built.registerCore {r : Registry F} (h : r.Built) : r.registerCore.Built :=
  (((h.registerSpecial _ _).registerSpecial _ _).registerSpecial _ _).registerSpecial _ _

/-- An entry is found under its own name. -/
theorem Built.name_eq {r : Registry F} (h : r.Built) :
    (∀ n entry, r.findFunction n = some entry → entry.name = n) ∧
      ∀ n entry, r.findSpecial n = some entry → entry.name = n := by
  induction h with
  | empty => simp [findFunction, findSpecial, Registry.empty]
  | @registerFunction r m body _ ih =>
    refine ⟨fun n entry hn => ?_, ih.2⟩
    rw [findFunction_registerFunction] at hn
    by_cases hm : m = n
    · rw [if_pos hm] at hn
      obtain rfl := Option.some.inj hn
      exact hm
    · rw [if_neg hm] at hn
      exact ih.1 n entry hn
  | @registerSpecial r m body _ ih =>
    refine ⟨ih.1, fun n entry hn => ?_⟩
    rw [findSpecial_registerSpecial] at hn
    by_cases hm : m = n
    · rw [if_pos hm] at hn
      obtain rfl := Option.some.inj hn
      exact hm
    · rw [if_neg hm] at hn
      exact ih.2 n entry hn
  | @unregisterFunction r m _ ih =>
    refine ⟨fun n entry hn => ?_, ih.2⟩
    rw [findFunction_unregisterFunction] at hn
    split at hn
    · cases hn
    · exact ih.1 n entry hn
  | @unregisterSpecial r m _ ih =>
    refine ⟨ih.1, fun n entry hn => ?_⟩
    rw [findSpecial_unregisterSpecial] at hn
    split at hn
    · cases hn
    · exact ih.2 n entry hn
  | clear => simp [findFunction, findSpecial, Registry.clear]

end Registry

section

variable {r : Registry F}

/-- The resolution of a command word that is no special form suits it. -/
theorem suits_of_commandOf (hr : r.Built) {n : Name} {kind : Option Ty} {resolution : Resolution F}
    (h : commandOf r n kind = .plain resolution) (pos : Pos) : resolution.Suits (.string n pos) := by
  unfold commandOf at h
  by_cases hkind : kind = some .closure
  · rw [if_pos hkind] at h
    obtain rfl := Command.plain.inj h
    exact Resolution.suits_bare (.inl rfl)
  · rw [if_neg hkind] at h
    cases hspecial : r.findSpecial n with
    | some entry =>
      rw [hspecial] at h
      cases h
    | none =>
      rw [hspecial] at h
      cases hfunction : r.findFunction n with
      | some entry =>
        rw [hfunction] at h
        obtain rfl := Command.plain.inj h
        exact Resolution.suits_ofFunction (hr.name_eq.1 n entry hfunction)
      | none =>
        rw [hfunction] at h
        obtain rfl := Command.plain.inj h
        exact Resolution.suits_bare (.inr rfl)

theorem CommandFound.suits (hr : r.Built) {op : ValuesOp F} {resolution : Resolution F}
    {t t' : CompileState} (h : CommandFound r op t (.plain resolution) t') : resolution.Suits op := by
  generalize hc : Command.plain resolution = c at h
  cases h with
  | text text pos t => exact suits_of_commandOf hr hc.symm pos
  | closure params captures chunk pos =>
    obtain rfl := Command.plain.inj hc
    exact Resolution.suits_closure params captures chunk pos

theorem CommandFound.suits_special (hr : r.Built) {op special : ValuesOp F}
    {entry : Builtin (SpecialForm F)} {t t' : CompileState}
    (h : CommandFound r op t (.special entry) t') (hspecial : special ≠ .missing) :
    (Resolution.ofSpecial ⟨entry.id, entry.name, ()⟩ special).Suits op := by
  generalize hc : Command.special entry = c at h
  cases h with
  | text text pos t =>
    obtain ⟨-, hfound⟩ := commandOf_eq_special hc.symm
    exact Resolution.suits_ofSpecial (hr.name_eq.2 text entry hfound) hspecial
  | closure => cases hc

end

/-! ### The rules -/

/-- A property of single results holds of all results in a chain. -/
theorem forall_of_chain {p : α → Prop} {s s' : CompileState} {as : List α}
    (h : Chain (fun _ a _ => p a) s as s') : ∀ a ∈ as, p a := by
  induction h with
  | nil => exact List.forall_mem_nil _
  | cons ha _ ih => exact List.forall_mem_cons.2 ⟨ha, ih⟩

theorem forall_of_pairs {p : α → Prop} {s s' : CompileState} {as : List (α × α)}
    (h : Chain (InPairs fun _ a _ => p a) s as s') : ∀ a ∈ as, p a.1 ∧ p a.2 := by
  induction h with
  | nil => exact List.forall_mem_nil _
  | cons hpair _ ih =>
    obtain ⟨_, hfst, hsnd⟩ := hpair
    exact List.forall_mem_cons.2 ⟨⟨hfst, hsnd⟩, ih⟩

section

variable {o : Options} {forms : List Form}

/-- An op made of values ops, its parts, that are complete. -/
theorem complete_of_parts (parts : List (ValuesOp F)) {op : ValuesOp F} (hpresent : op ≠ .missing)
    (hchildren : op.children = parts.map .values)
    (hsound : (∀ part ∈ parts, part ≠ .missing) → op.Sound forms)
    (h : ∀ part ∈ parts, part.Complete o forms) : op.Complete o forms := by
  refine ⟨hpresent, soundThroughout_of_children (hsound fun part hpart => (h part hpart).present) ?_⟩
  show ∀ z ∈ op.children, z.SoundThroughout o forms
  rw [hchildren]
  exact List.forall_mem_map.2 fun part hpart => (h part hpart).sound

/-- An op made of one values op. -/
theorem complete_around {op inner : ValuesOp F} (hpresent : op ≠ .missing)
    (hchildren : op.children = [.values inner]) (hsound : inner ≠ .missing → op.Sound forms)
    (h : inner.Complete o forms) : op.Complete o forms :=
  complete_of_parts [inner] hpresent hchildren (fun hparts => hsound (hparts inner List.mem_cons_self))
    (List.forall_mem_singleton.2 h)

theorem complete_string (text : Bytes) (pos : Pos) : (.string text pos : ValuesOp F).Complete o forms :=
  complete_of_parts [] (by simp) rfl (fun _ => trivial) (List.forall_mem_nil _)

theorem complete_spaced {ops : List (ValuesOp F)} (h : ∀ op ∈ ops, op.Complete o forms) (pos : Pos) :
    (ValuesOp.spaced ops pos).Complete o forms :=
  complete_of_parts ops (by simp) rfl id h

theorem complete_chunk {ops : List (ValuesOp F)} (h : ∀ op ∈ ops, op.Complete o forms) (pos : Pos) :
    (ValuesOp.chunk ops pos).Complete o forms :=
  complete_of_parts ops (by simp) rfl id h

/-- A word of one part is that part; any other has at least two. -/
theorem complete_word {ops : List (ValuesOp F)} (hne : ops ≠ []) (h : ∀ op ∈ ops, op.Complete o forms)
    (pos : Pos) : (ValuesOp.word ops pos).Complete o forms := by
  match ops with
  | [] => exact absurd rfl hne
  | [op] => exact h op List.mem_cons_self
  | op :: op' :: rest =>
    have hlength : 2 ≤ (op :: op' :: rest).length := by simp
    exact complete_of_parts _ (by simp [ValuesOp.word]) rfl (fun hparts => ⟨hlength, hparts⟩) h

theorem complete_indexed {left index : ValuesOp F} (hleft : left.Complete o forms)
    (hindex : index.Complete o forms) (pos : Pos) : (ValuesOp.indexed left index pos).Complete o forms := by
  -- the index is there, so the part is not just its left side
  have hop : ValuesOp.indexed left index pos = .subscript left index pos := by
    unfold ValuesOp.indexed
    split
    · exact absurd rfl hindex.present
    · rfl
  rw [hop]
  refine complete_of_parts [left, index] (by simp) rfl (fun _ => ⟨hleft.present, hindex.present⟩) ?_
  exact List.forall_mem_cons.2 ⟨hleft, List.forall_mem_singleton.2 hindex⟩

theorem complete_table {items : ValuesOp F} {pairs : List (ValuesOp F × ValuesOp F)}
    (hitems : items.Complete o forms) (h : ∀ p ∈ pairs, p.1.Complete o forms ∧ p.2.Complete o forms)
    (pos : Pos) : (ValuesOp.table items (pairs.map (·.1)) (pairs.map (·.2)) pos).Complete o forms := by
  have hkeys : ∀ op ∈ pairs.map (·.1), op.Complete o forms :=
    List.forall_mem_map.2 fun p hp => (h p hp).1
  have hvalues : ∀ op ∈ pairs.map (·.2), op.Complete o forms :=
    List.forall_mem_map.2 fun p hp => (h p hp).2
  have hlength : (pairs.map (·.1)).length = (pairs.map (·.2)).length := by
    rw [List.length_map, List.length_map]
  refine complete_of_parts (items :: (pairs.map (·.1) ++ pairs.map (·.2))) (by simp) rfl (fun _ => ?_) ?_
  · exact ⟨hitems.present, hlength, fun op hop => (hkeys op hop).present,
      fun op hop => (hvalues op hop).present⟩
  · exact List.forall_mem_cons.2 ⟨hitems, List.forall_mem_append.2 ⟨hkeys, hvalues⟩⟩

theorem complete_pipeline {stages : List (FormOp F)}
    (h : ∀ stage ∈ stages, (AnyOp.form stage).SoundThroughout o forms) (pos : Pos) :
    (ValuesOp.pipeline (stages.map some) pos).Complete o forms := by
  refine ⟨by simp, soundThroughout_of_children ?_ ?_⟩
  · exact List.forall_mem_map.2 fun _ _ => rfl
  · intro z hz
    obtain ⟨stage, hstage, rfl⟩ := List.mem_map.1 hz
    obtain ⟨stage', hmem, heq⟩ := List.mem_map.1 (List.reduceOption_mem_iff.1 hstage)
    obtain rfl := Option.some.inj heq
    exact h stage' hmem

/-- The ops of a port table that were put in it. -/
theorem soundThroughout_portTable {rs : List Redirection} {ops : List (PortOp F)}
    (h : ∀ op ∈ ops, (AnyOp.port op).SoundThroughout o forms) :
    ∀ z ∈ (portTable rs ops).reduceOption.map AnyOp.port, z.SoundThroughout o forms := by
  intro z hz
  obtain ⟨op, hop, rfl⟩ := List.mem_map.1 hz
  rcases mem_portTable (List.reduceOption_mem_iff.1 hop) with hnone | ⟨op', hop', heq⟩
  · cases hnone
  · obtain rfl := Option.some.inj heq
    exact h op hop'

theorem soundThroughout_form {f : FormOp F} (hsound : f.Sound o)
    (hcommand : (AnyOp.values f.command).SoundThroughout o forms)
    (hargs : (AnyOp.values f.args).SoundThroughout o forms)
    (hspecial : (AnyOp.values f.resolution.op).SoundThroughout o forms)
    (hports : ∀ z ∈ f.ports.reduceOption.map AnyOp.port, z.SoundThroughout o forms) :
    (AnyOp.form f).SoundThroughout o forms :=
  soundThroughout_of_children hsound (List.forall_mem_cons.2 ⟨hcommand,
    List.forall_mem_cons.2 ⟨hargs, List.forall_mem_cons.2 ⟨hspecial, hports⟩⟩⟩)

/-- A form that is no special form. -/
theorem soundThroughout_plainForm {op args : ValuesOp F} {ports : List (Option (PortOp F))}
    {resolution : Resolution F} (hop : op.Complete o forms) (hargs : args.Complete o forms)
    (hsuits : resolution.Suits op) (hkind : resolution.kind ≠ .special) (hfit : PortsFit o.maxFd ports)
    (hports : ∀ z ∈ ports.reduceOption.map AnyOp.port, z.SoundThroughout o forms) (pos : Pos) :
    (AnyOp.form ⟨op, args, ports, resolution, o.unsetPorts, pos⟩).SoundThroughout o forms := by
  have hmissing : resolution.op = .missing := by
    by_contra hpresent
    exact hkind (hsuits.specialOp.1 hpresent)
  have hiff : args = .missing ↔ resolution.kind = .special :=
    ⟨fun h => absurd h hargs.present, fun h => absurd h hkind⟩
  refine soundThroughout_form ⟨hsuits, hiff, hfit, rfl⟩ hop.sound hargs.sound ?_ hports
  rw [hmissing]
  exact missing_soundThroughout

/-- A special form, whose arguments went into its op. -/
theorem soundThroughout_specialForm {op special : ValuesOp F} {ports : List (Option (PortOp F))}
    {entry : Builtin Unit} (hop : op.Complete o forms) (hspecial : special.Complete o forms)
    (hsuits : (Resolution.ofSpecial entry special).Suits op) (hfit : PortsFit o.maxFd ports)
    (hports : ∀ z ∈ ports.reduceOption.map AnyOp.port, z.SoundThroughout o forms) (pos : Pos) :
    (AnyOp.form ⟨op, .missing, ports, .ofSpecial entry special, o.unsetPorts, pos⟩).SoundThroughout o forms :=
  soundThroughout_form ⟨hsuits, ⟨fun _ => rfl, fun _ => rfl⟩, hfit, rfl⟩ hop.sound
    missing_soundThroughout hspecial.sound hports

end

/-- **Ops are built soundly.** Each way of building an op from ops that are there and sound throughout
gives such an op. -/
theorem soundly (env : Env F) (hr : env.registry.Built) (forms : List Form) :
    Builds env (fun _ _ op _ => op.Complete env.options forms)
      (fun _ _ op _ => (AnyOp.port op).SoundThroughout env.options forms) true (· ∈ forms)
      (fun _ _ op _ => (AnyOp.form op).SoundThroughout env.options forms) where
  nested h := h
  nestedForm h := h
  string text pos := complete_string text pos
  reference pos _ := complete_of_parts [] (by simp) rfl (fun _ => trivial) (List.forall_mem_nil _)
  word pos hne h := complete_word hne (forall_of_chain h) pos
  sigil := by
    intro fs s op t resolution b pos h hcommand
    have hsuits := suits_of_commandOf hr hcommand pos
    obtain ⟨-, hkind, -⟩ := plain_of_commandOf hcommand
    have hstage : (AnyOp.form (sigilStage env.options b op resolution pos)).SoundThroughout env.options
        forms :=
      soundThroughout_plainForm (complete_string [b] pos) h hsuits hkind (.inl rfl)
        (List.forall_mem_nil _) pos
    have hpipeline := complete_pipeline (List.forall_mem_singleton.2 hstage) pos
    exact complete_around (by simp [ValuesOp.capture]) rfl (fun _ => ⟨_, rfl⟩) hpipeline
  indexed pos h h' := complete_indexed h h' pos
  spaced pos h := complete_spaced (forall_of_chain h) pos
  table pos h h' := complete_table (complete_spaced (forall_of_chain h) pos) (forall_of_pairs h') pos
  closure params pos h _ :=
    complete_around (by simp [ValuesOp.closureOf]) rfl id (complete_chunk (forall_of_chain (h rfl)) pos)
  pipeline pos h := complete_pipeline (forall_of_chain h) pos
  capture h := complete_around (by simp [ValuesOp.capture]) rfl (fun _ => ⟨_, rfl⟩) h
  plainForm := by
    intro f fs s op resolution portOps t args s' _ _ hhead hargs
    obtain ⟨u, v, hop, hfound, hports⟩ := hhead.parts
    have hfit := portsFit_portTable hhead.ports.length_eq hhead.checked
    exact soundThroughout_plainForm hop (complete_spaced (forall_of_chain hargs) f.argsPos)
      (hfound.suits hr) hfound.plain.2 hfit (soundThroughout_portTable (forall_of_chain hports)) f.pos
  specialForm := by
    intro f fs s op entry portOps t special s' _ _ hhead hspecial
    obtain ⟨u, v, hop, hfound, hports⟩ := hhead.parts
    have hfit := portsFit_portTable hhead.ports.length_eq hhead.checked
    exact soundThroughout_specialForm hop hspecial (hfound.suits_special hr hspecial.present) hfit
      (soundThroughout_portTable (forall_of_chain hports)) f.pos
  var := by
    intro f fs s values t valuesPos hmem hf _ hassigns _ h
    have hvalues := complete_spaced (forall_of_chain h) valuesPos
    refine complete_around (by simp) rfl (fun hpresent => ⟨f, hmem, hf, rfl, rfl, ?_⟩) hvalues
    exact ⟨fun h => absurd h hpresent, fun h => absurd hassigns h⟩
  declare := by
    intro f fs s hmem hf _ hassigns _
    have hsound : (ValuesOp.var f.names .missing f.pos : ValuesOp F).Sound forms :=
      ⟨f, hmem, hf, rfl, rfl, fun _ => hassigns, fun _ => rfl⟩
    exact ⟨by simp, soundThroughout_of_children hsound
      (List.forall_mem_singleton.2 missing_soundThroughout)⟩
  set valuesPos pos _ _ _ _ _ h :=
    complete_around (by simp) rfl id (complete_spaced (forall_of_chain h) valuesPos)
  del pos _ _ _ _ := complete_of_parts [] (by simp) rfl (fun _ => trivial) (List.forall_mem_nil _)
  fn pos _ _ _ h := complete_around (by simp) rfl id h
  closePort pos := soundThroughout_of_children trivial (List.forall_mem_nil _)
  dupPort pos hnonneg hle := soundThroughout_of_children ⟨hnonneg, hle⟩ (List.forall_mem_nil _)
  filePort flags pos h :=
    soundThroughout_of_children ⟨h.present, rfl⟩ (List.forall_mem_singleton.2 h.sound)

/-- **Compiled ops are sound.** If the builtins were registered and the special forms are among the four
that bind names, then every op that stands anywhere in the op of a script has the shape that running it
relies on, and each op of a `var` comes from a `var` of the script, with no values exactly if that has no
`=`. -/
theorem compiled_ops_sound (c : Compiler F) (hr : c.registry.Built) (hcore : c.registry.CoreOnly)
    (source : Source) (chunk : Chunk) (root : Frame) {op : ValuesOp F} {stats : Stats}
    (h : c.compile source chunk root = .ok ⟨.ok op, stats⟩) :
    op ≠ .missing ∧ ∀ x : AnyOp F, x.Within (.values op) →
      x.Sound c.options (formsInPipelines true chunk.pipelines) := by
  obtain ⟨ops, s', hops, rfl, -⟩ := gives_of_compile h
  have hchain := compilePipelines_builds (soundly ⟨c.registry, c.options, source⟩ hr _) hcore
    chunk.pipelines ⟨fun _ hf => hf, List.Subset.refl _⟩ hops
  have hcomplete := complete_chunk (forall_of_chain hchain) chunk.pos
  exact ⟨hcomplete.present, hcomplete.sound⟩

/-- `var y`, then `put a$y {|p| put [$y] @p} > out 2>&1`. -/
def variedScript : Chunk :=
  codeOf [formOf "var" [.string 0 (utf8 "y")],
    { formOf "put" [] with
      args := [some ⟨0, none, [⟨0, .string 0 (utf8 "a"), none⟩, ⟨0, .variable 0 (utf8 "y"), none⟩]⟩,
        some (wordOf (.closure 0 (some ⟨0, [utf8 "p"], ⟨0, [⟨0, [{ formOf "put" [] with
          args := [some (wordOf (.list 0 0 [some (wordOf (.variable 0 (utf8 "y")))])),
            some ⟨0, some 64, [⟨0, .string 0 (utf8 "p"), none⟩]⟩] }]⟩]⟩⟩)))]
      redirections := [intoFile (.string 0 (utf8 "out")), ⟨0, 2, .dup 1⟩] }]

/-- The same after `var z = a`, which is at another place. -/
def assigningScript : Chunk :=
  { variedScript with pipelines := ⟨0, [{ formOf "var"
    [.string 0 (utf8 "z"), .string 0 (utf8 "="), .string 0 (utf8 "a")] with pos := 1 }]⟩ ::
      variedScript.pipelines }

/-- The four forms that bind names and a function. -/
def withPut : Compiler Unit := ⟨Registry.empty.registerCore.registerFunction (utf8 "put") (), {}⟩

/-- The places of the ops of `var` among the special forms of a chunk, and whether they have values. -/
def ValuesOp.declarations : ValuesOp F → List (Pos × Bool)
  | .chunk pipelines _ => pipelines.flatMap fun
    | .pipeline stages _ => stages.reduceOption.flatMap fun stage =>
      match stage.resolution.op with
      | .var _ .missing pos => [(pos, false)]
      | .var _ _ pos => [(pos, true)]
      | _ => []
    | _ => []
  | _ => []

theorem compiled_ops_sound_varied :
    withPut.registry.Built ∧ withPut.registry.CoreOnly ∧
    ∃ op stats, withPut.compile ⟨[], []⟩ assigningScript ∅ = .ok ⟨.ok op, stats⟩ ∧
      op.declarations = [(1, true), (0, false)] ∧ op ≠ .missing ∧
      ∀ x : AnyOp Unit, x.Within (.values op) →
        x.Sound withPut.options (formsInPipelines true assigningScript.pipelines) := by
  have hbuilt : withPut.registry.Built := Registry.Built.empty.registerCore.registerFunction _ _
  have hcore : withPut.registry.CoreOnly := coreOnly_coreEnv
  obtain ⟨op, stats, h, hdeclarations⟩ := exists_of_compile withPut ⟨[], []⟩ assigningScript ∅
    (·.declarations = [(1, true), (0, false)]) (by decide +kernel)
  exact ⟨hbuilt, hcore, op, stats, h, of_decide_eq_true hdeclarations,
    compiled_ops_sound withPut hbuilt hcore ⟨[], []⟩ assigningScript ∅ h⟩

end ShellOps
