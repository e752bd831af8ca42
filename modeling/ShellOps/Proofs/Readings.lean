/-
# Words mean what they say

A direct reading of the words of a script, by recursion on the tree: what a string, a variable, a
list, a table, an index and a word of several parts ask of an evaluator, and in which order. Running
the op that a word compiles to is reading the word, whatever the evaluator: the same operations in the
same order, the same values or the same failure, at the same places.

The compiler leaves nodes out (a word of one part, a part without index, a status capture) and adds
some (the form of a sigil), so op and word differ in shape. What they have in common is carried
through the recursion: the op is there, it is at the place of the word, and it runs as the word reads
(`ReadsAs`).

Code in a word, which is the pipelines of captures and the closure literals, runs as it compiles;
that depends on the state in which the compiler comes to it, so a reading starts from a state.
-/
import ShellOps.Machine.Basic
import ShellOps.Proofs.Building

namespace ShellOps

variable {α F : Type} {W : World} {s s' : CompileState}

/-! ### Places -/

/-- The place that a primary is blamed at: for code and lists, their own. -/
def Primary.place : Primary → Pos
  | .closure _ (some c) => c.pos
  | .list _ itemsPos _ => itemsPos
  | .chanCapture _ (some p) | .statusCapture _ (some p) => p.pos
  | p => p.pos

/-- The place that a part is blamed at: with an index, that of the index. -/
def Part.place (p : Part) : Pos :=
  match p.index with
  | none => p.left.place
  | some index => index.pos

/-- The place that a word is blamed at: with one part and no sigil, that of the part. -/
def Word.place (w : Word) : Pos :=
  match w.sigil, w.parts with
  | none, [p] => p.place
  | _, _ => w.pos

/-! ### Code in words -/

/-- The state that a step started in `s` leaves. -/
def CompileM.after (x : CompileM α) (s : CompileState) : CompileState := (x.outcome s).2

theorem CompileM.after_eq {x : CompileM α} {a : α} (h : x.Gives s a s') : x.after s = s' := by
  unfold CompileM.after
  rw [show x.outcome s = (.ok a, s') from h]

/-- Reads code by what it compiles to from `s` and the state it leaves. Code that does not compile
reads as nothing. -/
def readCode (x : CompileM α) (s : CompileState) (read : α → CompileState → Run W (List W.Value)) :
    Run W (List W.Value) :=
  match x.outcome s with
  | (.ok a, t) => read a t
  | (.error _, _) => pure []

theorem readCode_eq {x : CompileM α} {a : α} (h : x.Gives s a s')
    (read : α → CompileState → Run W (List W.Value)) : readCode x s read = read a s' := by
  unfold readCode
  rw [show x.outcome s = (.ok a, s') from h]

section

variable (env : Env F) (ev : Evaluator W F)

/-- Runs forms side by side. -/
def readStages (stages : List (FormOp F)) (pos : Pos) : Run W (List W.Value) :=
  ev.runPipeline (stages.map fun f => ⟨some f, f.exec ev⟩) pos

/-- The variable that now has a captured name. -/
def readCaptured (pos : Pos) (n : Name) : Run W (Name × W.Variable) := do
  match ← ev.lookup n with
  | some v => return (n, v)
  | none => fail pos (.capturedNotFound n)

/-- Makes a closure of the given code, which ended in the state `t`: the captured names are looked up
in their order, then the closure is made. -/
def readClosure (params : List Name) (pos : Pos) (pipelines : List (ValuesOp F)) (t : CompileState) :
    Run W (List W.Value) := do
  let captured ← t.captures.keys.mapM (readCaptured ev pos)
  return [← ev.makeClosure ⟨params, t.captures, .chunk pipelines pos, pos⟩ captured]

/-- Calls the command of a sigil with the values of a word. -/
def callSigil (b : UInt8) (pos : Pos) (resolution : Resolution F) (word : Run W (List W.Value)) :
    Run W (List W.Value) := do
  let command ← ev.makeString [b]
  let args ← word
  ev.call { resolution, special := none, command := [command], args, ports := [], pos }

/-- Passes a word, which compiled to `op` and left the state `t`, to the command that its sigil
names, and gives what that writes. -/
def readSigil (b : UInt8) (pos : Pos) (op : ValuesOp F) (word : Run W (List W.Value))
    (t : CompileState) : Run W (List W.Value) :=
  match commandOf env.registry [b] (t.scopes.type? (functionName [b])) with
  | .special _ => pure []
  | .plain resolution =>
    let stage : FormOp F := sigilStage env.options b op resolution pos
    ev.captureOutput (.pipeline [some stage] pos)
      (ev.runPipeline [⟨some stage, callSigil ev b pos resolution word⟩] pos)

/-- Joins each value so far with each value of the next part, which is at `pos`. -/
def joinEach (acc values : List W.Value) (pos : Pos) : Run W (List W.Value) := do
  return (← acc.mapM fun l => values.mapM fun r => ev.concat l r pos).flatten

/-! ### Readings -/

mutual

/-- The words of a list, one after the other. -/
def readWords (s : CompileState) : List (Option Word) → Run W (List W.Value)
  | some word :: words => do
    let values ← readWord s word
    return values ++ (← readWords ((compileWord env word).after s) words)
  | _ => pure []

/-- A word, which a sigil makes the argument of a command. -/
def readWord (s : CompileState) : Word → Run W (List W.Value)
  | ⟨_, none, parts⟩ => readParts s.deeper parts
  | ⟨pos, some b, parts⟩ =>
    readCode (compileParts env parts) s.deeper fun ops =>
      readSigil env ev b pos (.word ops pos) (readParts s.deeper parts)

/-- The parts of a word: the values of the first, joined with those of each further one. -/
def readParts (s : CompileState) : List Part → Run W (List W.Value)
  | [] => pure []
  | p :: ps => do readFurther ((compilePart env p).after s) (← readPart s p) ps

/-- Further parts: each is read, and then joined with the values so far. -/
def readFurther (s : CompileState) (acc : List W.Value) : List Part → Run W (List W.Value)
  | [] => pure acc
  | p :: ps => do
    let values ← readPart s p
    readFurther ((compilePart env p).after s) (← joinEach ev acc values p.place) ps

/-- A primary, or what is in a single value at each key that the index gives. -/
def readPart (s : CompileState) : Part → Run W (List W.Value)
  | ⟨_, left, none⟩ => readPrimary s left
  | ⟨_, left, some index⟩ => do
    let container ← single .subscripted left.place (← readPrimary s left)
    let keys ← readWord ((compilePrimary env left).after s) index
    return (← keys.mapM fun key => ev.index container key index.place).flatten

/-- The pairs of a table: a key, then its value, and each must be a single one. -/
def readPairs (s : CompileState) : List TablePair → Run W (List (W.Value × W.Value))
  | ⟨some key, some value⟩ :: rest => do
    let keys ← readWord s key
    let values ← readWord ((compileWord env key).after s) value
    let k ← single .tableKey key.place keys
    let v ← single .tableValue value.place values
    return (k, v) ::
      (← readPairs ((compileWord env value).after ((compileWord env key).after s)) rest)
  | _ => pure []

/-- A primary. -/
def readPrimary (s : CompileState) : Primary → Run W (List W.Value)
  | .string _ text => do return [← ev.makeString text]
  | .variable pos name => do
    match ← ev.lookup name with
    | some v => return [← ev.get v]
    | none => fail pos (.variableNotFound name)
  | .list _ _ items => readWords s.deeper items
  | .table _ items pairs => do
    let list ← readWords s.deeper items
    let dict ← readPairs ((compileWords env items).after s.deeper) pairs
    return [← ev.makeTable list dict]
  | .closure _ (some ⟨pos, params, ⟨_, pipelines⟩⟩) =>
    readCode (compilePipelines env pipelines) (s.deeper.deeper.entered params)
      (readClosure ev params pos)
  | .chanCapture _ (some ⟨pos, forms⟩) =>
    readCode (compileForms env forms) s.deeper.deeper fun stages _ =>
      ev.captureOutput (.pipeline (stages.map some) pos) (readStages ev stages pos)
  | .statusCapture _ (some ⟨pos, forms⟩) =>
    readCode (compileForms env forms) s.deeper.deeper fun stages _ => readStages ev stages pos
  | _ => pure []

end

end

/-! ### Steps in sequence -/

section

variable (ev : Evaluator W F)

theorem captureVariables_eq (pos : Pos) (names : List Name) :
    captureVariables ev pos names = names.mapM (readCaptured ev pos) := by
  induction names with
  | nil => rfl
  | cons n names ih =>
    rw [captureVariables, List.mapM_cons, ih, readCaptured, bind_assoc]
    refine bind_congr fun v => ?_
    cases v with
    | none => rfl
    | some v => rw [pure_bind]

theorem concatAll_eq (pos : Pos) (lefts rights : List W.Value) :
    concatAll ev lefts rights pos = joinEach ev lefts rights pos := by
  unfold concatAll joinEach
  induction lefts with
  | nil => rfl
  | cons l lefts ih =>
    rw [List.flatMap_cons, List.mapM_append, ih, List.mapM_map]
    simp only [List.mapM_cons, bind_assoc, pure_bind, List.flatten_cons]
    rfl

theorem indexAll_eq (container : W.Value) (pos : Pos) (keys : List W.Value) :
    indexAll ev container pos keys = do
      return (← keys.mapM fun key => ev.index container key pos).flatten := by
  induction keys with
  | nil => rfl
  | cons key keys ih =>
    rw [indexAll, ih, List.mapM_cons]
    simp only [bind_assoc, pure_bind, List.flatten_cons]

theorem execSteps_map_some (stages : List (FormOp F)) :
    execSteps ev (stages.map some) = stages.map fun f => ⟨some f, f.exec ev⟩ := by
  induction stages with
  | nil => simp [execSteps]
  | cons f stages ih => simp [execSteps, execStep, ih]

/-- A word of one part runs as a word of several would. -/
theorem eval_word {ops : List (ValuesOp F)} (h : ops ≠ []) (pos : Pos) :
    (ValuesOp.word ops pos).eval ev = product ev (evalSteps ev ops) := by
  match ops, h with
  | [op], _ => simp [product, productFrom, evalSteps]
  | op :: op' :: ops, _ => simp only [ValuesOp.word, ValuesOp.eval]

/-- An index that is there is not left out. -/
theorem indexed_eq {left index : ValuesOp F} (h : index ≠ .missing) (pos : Pos) :
    ValuesOp.indexed left index pos = .subscript left index pos := by
  cases index with
  | missing => exact absurd rfl h
  | _ => rfl

/-- A stage whose command is a string of one byte runs the string, then its arguments, and opens no
port if it has none. -/
theorem exec_callStage {r : Registry F} {n : Name} {kind : Option Ty} {resolution : Resolution F}
    (h : commandOf r n kind = .plain resolution) (b : UInt8) (args : ValuesOp F) (textPos : Pos)
    (unset : PortPolicy) (pos : Pos) :
    FormOp.exec ev ⟨.string [b] textPos, args, [], resolution, unset, pos⟩ =
      callSigil ev b pos resolution (args.eval ev) := by
  have hspecial : specialStep ev resolution = none := by
    obtain ⟨kind, function, special, op⟩ := resolution
    obtain ⟨-, hkind, -⟩ := plain_of_commandOf h
    cases kind with
    | special => exact absurd rfl hkind
    | _ => simp [specialStep]
  simp [callSigil, FormOp.exec, ValuesOp.eval, attachSteps, attachAll, hspecial]

/-- The stage of a sigil runs the string of the sigil, then the word. -/
theorem exec_sigilStage {r : Registry F} {n : Name} {kind : Option Ty} {resolution : Resolution F}
    (h : commandOf r n kind = .plain resolution) (o : Options) (b : UInt8) (op : ValuesOp F)
    (pos : Pos) :
    (sigilStage o b op resolution pos).exec ev = callSigil ev b pos resolution (op.eval ev) :=
  exec_callStage ev h b op pos o.unsetPorts pos

end

/-! ### Words, taken apart -/

section

variable {env : Env F}

/-- A word that compiles has parts; its op is theirs, passed to the command of its sigil. -/
theorem gives_compileWord {pos : Pos} {sigil : Option UInt8} {parts : List Part} {op : ValuesOp F}
    (h : (compileWord env ⟨pos, sigil, parts⟩).Gives s op s') :
    ∃ ops t u, (compileParts env parts).Gives s.deeper ops t ∧ parts ≠ [] ∧
      (applySigil env pos sigil (.word ops pos)).Gives t op u := by
  simp only [compileWord] at h
  obtain ⟨-, u, h, -⟩ := CompileM.gives_nested.1 h
  by_cases hparts : parts.isEmpty
  · rw [if_pos hparts] at h
    obtain ⟨_, _, hmalformed, -⟩ := CompileM.gives_bind.1 h
    exact absurd hmalformed CompileM.gives_malformed
  · rw [if_neg hparts] at h
    obtain ⟨ops, t, hops, hsigil⟩ := CompileM.gives_bind.1 h
    refine ⟨ops, t, u, hops, ?_, hsigil⟩
    rintro rfl
    exact hparts rfl

theorem gives_compilePipeline {pos : Pos} {forms : List Form} {op : ValuesOp F}
    (h : (compilePipeline env ⟨pos, forms⟩).Gives s op s') :
    ∃ stages t, (compileForms env forms).Gives s.deeper stages t ∧
      op = .pipeline (stages.map some) pos := by
  simp only [compilePipeline] at h
  obtain ⟨-, t, h, -⟩ := CompileM.gives_nested.1 h
  obtain ⟨stages, u, hstages, h⟩ := CompileM.gives_bind.1 h
  exact ⟨stages, u, hstages, (CompileM.gives_pure.1 h).1⟩

theorem gives_compileParts {p : Part} {ps : List Part} {ops : List (ValuesOp F)}
    (h : (compileParts env (p :: ps)).Gives s ops s') :
    ∃ op ops' t, (compilePart env p).Gives s op t ∧ (compileParts env ps).Gives t ops' s' ∧
      ops = op :: ops' := by
  simp only [compileParts] at h
  obtain ⟨op, t, hop, h⟩ := CompileM.gives_bind.1 h
  obtain ⟨ops', u, hops, h⟩ := CompileM.gives_bind.1 h
  obtain ⟨rfl, rfl⟩ := CompileM.gives_pure.1 h
  exact ⟨op, ops', t, hop, hops, rfl⟩

end

/-! ### What an op has in common with its word -/

/-- The op is there, at the given place, and runs as the given reading. -/
structure ReadsAs (ev : Evaluator W F) (place : Pos) (reading : Run W (List W.Value))
    (op : ValuesOp F) : Prop where
  present : op ≠ .missing
  place : op.pos = place
  eval : op.eval ev = reading

section

variable {env : Env F} {ev : Evaluator W F}

theorem applySigil_readsAs {word op : ValuesOp F} {pos : Pos} {b : UInt8}
    (h : (applySigil env pos (some b) word).Gives s op s') :
    ReadsAs ev pos (readSigil env ev b pos word (word.eval ev) s) op := by
  obtain ⟨_, t, hcount, h⟩ := CompileM.gives_bind.1 h
  obtain ⟨c, u, hc, h⟩ := CompileM.gives_bind.1 h
  obtain rfl := CompileM.gives_count.1 hcount
  obtain ⟨rfl, rfl⟩ := gives_resolveCommand.1 hc
  unfold readSigil
  cases hcommand : commandOf env.registry [b] (s.scopes.type? (functionName [b])) with
  | special entry => simp [hcommand] at h
  | plain resolution =>
    simp only [hcommand] at h
    obtain ⟨rfl, -⟩ := CompileM.gives_pure.1 h
    refine ⟨(by rintro ⟨⟩), rfl, ?_⟩
    have hexec := exec_sigilStage ev hcommand env.options b word pos
    simp only [ValuesOp.capture, ValuesOp.eval, execSteps, execStep]
    rw [← hexec]
    rfl

mutual

theorem compileWords_read : ∀ {words s ops s'}, (compileWords env words).Gives s ops s' →
    sequence (evalSteps ev ops) = readWords env ev s words
  | [], s, ops, s', h => by
    simp only [compileWords] at h
    obtain ⟨rfl, -⟩ := CompileM.gives_pure.1 h
    simp only [evalSteps, sequence, readWords]
  | none :: words, s, ops, s', h => by
    simp only [compileWords] at h
    exact absurd h CompileM.gives_malformed
  | some word :: words, s, ops, s', h => by
    simp only [compileWords] at h
    obtain ⟨op, t, hop, h⟩ := CompileM.gives_bind.1 h
    obtain ⟨ops', u, hops, h⟩ := CompileM.gives_bind.1 h
    obtain ⟨rfl, -⟩ := CompileM.gives_pure.1 h
    simp only [evalSteps, sequence, readWords, CompileM.after_eq hop]
    rw [(compileWord_readsAs hop).eval, compileWords_read hops]

theorem compileWord_readsAs : ∀ {word s op s'}, (compileWord env word).Gives s op s' →
    ReadsAs ev word.place (readWord env ev s word) op
  | ⟨pos, none, []⟩, s, op, s', h => by
    obtain ⟨ops, t, u, -, hparts, -⟩ := gives_compileWord h
    exact absurd rfl hparts
  | ⟨pos, none, [p]⟩, s, op, s', h => by
    -- the word vanishes: its op is that of the part
    obtain ⟨ops, t, u, hops, -, hsigil⟩ := gives_compileWord h
    obtain ⟨partOp, ops', v, hpart, hnone, rfl⟩ := gives_compileParts hops
    simp only [compileParts] at hnone
    obtain ⟨rfl, -⟩ := CompileM.gives_pure.1 hnone
    obtain ⟨rfl, -⟩ := CompileM.gives_pure.1 hsigil
    have hread : readWord env ev s ⟨pos, none, [p]⟩ = readPart env ev s.deeper p := by
      simp only [readWord, readParts, readFurther, bind_pure]
    rw [hread]
    exact compilePart_readsAs hpart
  | ⟨pos, none, p :: q :: ps⟩, s, op, s', h => by
    obtain ⟨ops, t, u, hops, -, hsigil⟩ := gives_compileWord h
    have heval := compileParts_read hops
    obtain ⟨op₁, rest, v, -, hrest, rfl⟩ := gives_compileParts hops
    obtain ⟨op₂, rest, v', -, -, rfl⟩ := gives_compileParts hrest
    obtain ⟨rfl, -⟩ := CompileM.gives_pure.1 hsigil
    refine ⟨(by rintro ⟨⟩), rfl, ?_⟩
    simp only [ValuesOp.word, ValuesOp.eval, readWord]
    exact heval
  | ⟨pos, some b, parts⟩, s, op, s', h => by
    obtain ⟨ops, t, u, hops, hparts, hsigil⟩ := gives_compileWord h
    have hne : ops ≠ [] := ne_nil_of_compileParts (by simpa using hparts) hops
    have hread : ReadsAs ev pos _ op := applySigil_readsAs hsigil
    rw [eval_word ev hne, compileParts_read hops] at hread
    simp only [readWord, readCode_eq hops]
    exact hread

theorem compileParts_read : ∀ {parts s ops s'}, (compileParts env parts).Gives s ops s' →
    product ev (evalSteps ev ops) = readParts env ev s parts
  | [], s, ops, s', h => by
    simp only [compileParts] at h
    obtain ⟨rfl, -⟩ := CompileM.gives_pure.1 h
    simp only [evalSteps, product, readParts]
  | p :: ps, s, ops, s', h => by
    obtain ⟨op, ops', t, hop, hops, rfl⟩ := gives_compileParts h
    simp only [evalSteps, product, readParts, CompileM.after_eq hop]
    rw [(compilePart_readsAs hop).eval]
    exact bind_congr fun acc => compileFurther_read hops acc

theorem compileFurther_read : ∀ {parts s ops s'}, (compileParts env parts).Gives s ops s' →
    ∀ acc, productFrom ev acc (evalSteps ev ops) = readFurther env ev s acc parts
  | [], s, ops, s', h, acc => by
    simp only [compileParts] at h
    obtain ⟨rfl, -⟩ := CompileM.gives_pure.1 h
    simp only [evalSteps, productFrom, readFurther]
  | p :: ps, s, ops, s', h, acc => by
    obtain ⟨op, ops', t, hop, hops, rfl⟩ := gives_compileParts h
    have hp := compilePart_readsAs hop
    simp only [evalSteps, productFrom, readFurther, CompileM.after_eq hop]
    rw [hp.eval, hp.place]
    refine bind_congr fun values => ?_
    rw [concatAll_eq]
    exact bind_congr fun joined => compileFurther_read hops joined

theorem compilePart_readsAs : ∀ {part s op s'}, (compilePart env part).Gives s op s' →
    ReadsAs ev part.place (readPart env ev s part) op
  | ⟨_, left, none⟩, s, op, s', h => by
    simp only [compilePart] at h
    simp only [readPart]
    exact compilePrimary_readsAs h
  | ⟨_, left, some index⟩, s, op, s', h => by
    simp only [compilePart] at h
    obtain ⟨leftOp, t, hleft, h⟩ := CompileM.gives_bind.1 h
    obtain ⟨indexOp, u, hindex, h⟩ := CompileM.gives_bind.1 h
    obtain ⟨rfl, -⟩ := CompileM.gives_pure.1 h
    have hl := compilePrimary_readsAs hleft
    have hi := compileWord_readsAs hindex
    rw [indexed_eq hi.present]
    refine ⟨(by rintro ⟨⟩), rfl, ?_⟩
    simp only [ValuesOp.eval, readPart, CompileM.after_eq hleft]
    rw [hl.eval, hl.place, hi.eval, hi.place]
    refine bind_congr fun lefts => bind_congr fun container => bind_congr fun keys => ?_
    exact indexAll_eq ev container index.place keys

theorem compilePairs_read : ∀ {pairs s ops s'}, (compilePairs env pairs).Gives s ops s' →
    pairUp (evalSteps ev (ops.map (·.1))) (evalSteps ev (ops.map (·.2))) = readPairs env ev s pairs
  | [], s, ops, s', h => by
    simp only [compilePairs] at h
    obtain ⟨rfl, -⟩ := CompileM.gives_pure.1 h
    simp only [List.map_nil, evalSteps, pairUp, readPairs]
  | ⟨some key, some value⟩ :: rest, s, ops, s', h => by
    simp only [compilePairs] at h
    obtain ⟨keyOp, t, hkey, h⟩ := CompileM.gives_bind.1 h
    obtain ⟨valueOp, u, hvalue, h⟩ := CompileM.gives_bind.1 h
    obtain ⟨ops', v, hrest, h⟩ := CompileM.gives_bind.1 h
    obtain ⟨rfl, -⟩ := CompileM.gives_pure.1 h
    have hk := compileWord_readsAs hkey
    have hv := compileWord_readsAs hvalue
    simp only [List.map_cons, evalSteps, pairUp, readPairs, CompileM.after_eq hkey,
      CompileM.after_eq hvalue]
    rw [hk.eval, hk.place, hv.eval, hv.place, compilePairs_read hrest]
  | ⟨none, _⟩ :: rest, s, ops, s', h => by
    simp only [compilePairs] at h
    exact absurd h CompileM.gives_malformed
  | ⟨some _, none⟩ :: rest, s, ops, s', h => by
    simp only [compilePairs] at h
    exact absurd h CompileM.gives_malformed

theorem compilePrimary_readsAs : ∀ {primary s op s'}, (compilePrimary env primary).Gives s op s' →
    ReadsAs ev primary.place (readPrimary env ev s primary) op
  | .string pos text, s, op, s', h => by
    simp only [compilePrimary] at h
    obtain ⟨-, t, h, -⟩ := CompileM.gives_nested.1 h
    obtain ⟨rfl, -⟩ := CompileM.gives_pure.1 h
    refine ⟨(by rintro ⟨⟩), rfl, ?_⟩
    simp only [ValuesOp.eval, readPrimary]
  | .variable pos name, s, op, s', h => by
    simp only [compilePrimary] at h
    obtain ⟨-, t, h, -⟩ := CompileM.gives_nested.1 h
    obtain ⟨_, _, -, h⟩ := CompileM.gives_bind.1 h
    obtain ⟨_, _, -, h⟩ := CompileM.gives_bind.1 h
    obtain ⟨rfl, -⟩ := CompileM.gives_pure.1 h
    refine ⟨(by rintro ⟨⟩), rfl, ?_⟩
    show (ev.lookup name >>= _) = (ev.lookup name >>= _)
    refine bind_congr fun v => ?_
    cases v <;> rfl
  | .table pos items pairs, s, op, s', h => by
    simp only [compilePrimary] at h
    obtain ⟨-, t, h, -⟩ := CompileM.gives_nested.1 h
    obtain ⟨itemOps, u, hitems, h⟩ := CompileM.gives_bind.1 h
    obtain ⟨pairOps, v, hpairs, h⟩ := CompileM.gives_bind.1 h
    simp only [ValuesOp.table?, List.length_map, if_true] at h
    obtain ⟨rfl, -⟩ := CompileM.gives_pure.1 h
    refine ⟨(by rintro ⟨⟩), rfl, ?_⟩
    simp only [ValuesOp.eval, readPrimary, CompileM.after_eq hitems]
    rw [compileWords_read hitems, compilePairs_read hpairs]
  | .closure pos none, s, op, s', h => by
    simp only [compilePrimary] at h
    obtain ⟨-, t, h, -⟩ := CompileM.gives_nested.1 h
    exact absurd h CompileM.gives_malformed
  | .closure _ (some ⟨pos, params, ⟨_, pipelines⟩⟩), s, op, s', h => by
    simp only [compilePrimary] at h
    obtain ⟨-, t, h, -⟩ := CompileM.gives_nested.1 h
    obtain ⟨c, u, hc, rfl, -⟩ := gives_forwarding.1 h
    simp only [compileClosure] at hc
    obtain ⟨ops, v, scopes, hops, -, rfl, -⟩ := gives_closureAround hc
    refine ⟨(by rintro ⟨⟩), rfl, ?_⟩
    simp only [ValuesOp.closureOf, ValuesOp.eval, readPrimary, readCode_eq hops, readClosure,
      captureVariables_eq]
  | .list pos itemsPos items, s, op, s', h => by
    simp only [compilePrimary] at h
    obtain ⟨-, t, h, -⟩ := CompileM.gives_nested.1 h
    obtain ⟨ops, u, hops, h⟩ := CompileM.gives_bind.1 h
    obtain ⟨rfl, -⟩ := CompileM.gives_pure.1 h
    refine ⟨(by rintro ⟨⟩), rfl, ?_⟩
    simp only [ValuesOp.eval, readPrimary]
    exact compileWords_read hops
  | .chanCapture pos none, s, op, s', h | .statusCapture pos none, s, op, s', h
  | .unknown pos, s, op, s', h => by
    simp only [compilePrimary] at h
    obtain ⟨-, t, h, -⟩ := CompileM.gives_nested.1 h
    exact absurd h CompileM.gives_malformed
  | .chanCapture _ (some ⟨pos, forms⟩), s, op, s', h => by
    simp only [compilePrimary] at h
    obtain ⟨-, t, h, -⟩ := CompileM.gives_nested.1 h
    obtain ⟨pipeline, u, hpipeline, h⟩ := CompileM.gives_bind.1 h
    obtain ⟨rfl, -⟩ := CompileM.gives_pure.1 h
    obtain ⟨stages, v, hstages, rfl⟩ := gives_compilePipeline hpipeline
    refine ⟨(by rintro ⟨⟩), rfl, ?_⟩
    simp only [ValuesOp.capture, ValuesOp.eval, readPrimary, readCode_eq hstages, readStages,
      execSteps_map_some]
  | .statusCapture _ (some ⟨pos, forms⟩), s, op, s', h => by
    simp only [compilePrimary] at h
    obtain ⟨-, t, h, -⟩ := CompileM.gives_nested.1 h
    obtain ⟨stages, v, hstages, rfl⟩ := gives_compilePipeline h
    refine ⟨(by rintro ⟨⟩), rfl, ?_⟩
    simp only [ValuesOp.eval, readPrimary, readCode_eq hstages, readStages, execSteps_map_some]

end

end

/-- **Words mean what they say.** Whatever the evaluator and the special forms: if a word, a part or a
primary compiles, running its op is reading it, with the same operations in the same order and the
same values or the same failure. -/
theorem words_read_as_written (env : Env F) (ev : Evaluator W F) (s s' : CompileState)
    (op : ValuesOp F) :
    (∀ word, (compileWord env word).Gives s op s' → op.eval ev = readWord env ev s word) ∧
    (∀ part, (compilePart env part).Gives s op s' → op.eval ev = readPart env ev s part) ∧
    ∀ primary, (compilePrimary env primary).Gives s op s' →
      op.eval ev = readPrimary env ev s primary :=
  ⟨fun _ h => (compileWord_readsAs h).eval, fun _ h => (compilePart_readsAs h).eval,
    fun _ h => (compilePrimary_readsAs h).eval⟩

/-- `@[a {put $x}]$x[k]`. -/
def mixedWord : Word :=
  ⟨0, some 64, [
    ⟨0, .list 0 0 [some (wordOf (.string 0 (utf8 "a"))), some (wordOf (.closure 0 (some
      (closureOf [] [formOf "put" [.variable 0 (utf8 "x")]]))))], none⟩,
    ⟨0, .variable 0 (utf8 "x"), some (wordOf (.string 0 (utf8 "k")))⟩]⟩

theorem mixedWord_read : ∃ op s',
    (compileWord (coreEnv : Env Machine.Function) mixedWord).Gives (.ofRoot {(utf8 "x", .any)}) op s' ∧
    op.eval Machine.top =
      readWord coreEnv Machine.top (.ofRoot {(utf8 "x", .any)}) mixedWord := by
  obtain ⟨op, s', h⟩ := CompileM.exists_gives (x := compileWord (coreEnv : Env Machine.Function) mixedWord)
    (s := .ofRoot {(utf8 "x", .any)}) (by decide +kernel)
  exact ⟨op, s', h, (words_read_as_written coreEnv Machine.top _ s' op).1 mixedWord h⟩

end ShellOps
