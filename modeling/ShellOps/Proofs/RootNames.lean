/-
# Only the names that a script mentions matter

Of the names that are in scope before a script starts, compiling it sees those that the script mentions.
Root frames that agree on these, on which of them are bound and on their kinds, give the same op, or the
same complaint at the same place, with the same statistics. Neither the name of the script nor its text
has a say.

The proof runs two compilations side by side. Their frames stay alike: each frame of the one agrees with
the frame of the other at the same height on every mentioned name (`CompileState.Alike`). A name is
captured only when it is looked up, so every captured name is mentioned, and that is why passing the
captures of a closure on, which asks for each of them whether a frame binds it, does the same in both.
-/
import ShellOps.Proofs.Relations

namespace ShellOps

variable {α β F : Type} {mentioned : Name → Prop}

/-- The frames bind the same mentioned names, to the same kinds. -/
def Frame.AgreeOn (mentioned : Name → Prop) (f g : Frame) : Prop :=
  ∀ n, mentioned n → f[n]? = g[n]?

namespace Frame.AgreeOn

variable {f g : Frame}

theorem insert (h : AgreeOn mentioned f g) (n : Name) (t : Ty) :
    AgreeOn mentioned (f.insert n t) (g.insert n t) := by
  intro m hm
  rw [Std.ExtTreeMap.getElem?_insert, Std.ExtTreeMap.getElem?_insert, h m hm]

theorem erase (h : AgreeOn mentioned f g) (n : Name) :
    AgreeOn mentioned (f.erase n) (g.erase n) := by
  intro m hm
  rw [Std.ExtTreeMap.getElem?_erase, Std.ExtTreeMap.getElem?_erase, h m hm]

/-- The nearest of several frames that binds a mentioned name gives it the same kind. -/
theorem findSome? {fs gs : List Frame} (h : List.Forall₂ (AgreeOn mentioned) fs gs) {n : Name}
    (hn : mentioned n) : fs.findSome? (·[n]?) = gs.findSome? (·[n]?) := by
  induction h with
  | nil => rfl
  | cons hfg _ ih => rw [List.findSome?_cons, List.findSome?_cons, hfg n hn, ih]

end Frame.AgreeOn

namespace ScopeStack

/-- Stacks of the same height whose frames agree on the mentioned names. -/
structure Alike (mentioned : Name → Prop) (s t : ScopeStack) : Prop where
  innermost : Frame.AgreeOn mentioned s.innermost t.innermost
  outer : List.Forall₂ (Frame.AgreeOn mentioned) s.outer t.outer

namespace Alike

variable {s t : ScopeStack}

theorem bind (h : Alike mentioned s t) (n : Name) (k : Ty) : Alike mentioned (s.bind n k) (t.bind n k) :=
  ⟨h.innermost.insert n k, h.outer⟩

theorem unbind (h : Alike mentioned s t) (n : Name) : Alike mentioned (s.unbind n) (t.unbind n) :=
  ⟨h.innermost.erase n, h.outer⟩

theorem push (h : Alike mentioned s t) : Alike mentioned s.push t.push :=
  ⟨fun _ _ => rfl, .cons h.innermost h.outer⟩

theorem bindAll (params : List Name) (k : Ty) : ∀ {s t : ScopeStack}, Alike mentioned s t →
    Alike mentioned (params.foldl (·.bind · k) s) (params.foldl (·.bind · k) t) := by
  induction params with
  | nil => exact fun h => h
  | cons p ps ih => exact fun h => ih (h.bind p k)

theorem hasLocal (h : Alike mentioned s t) {n : Name} (hn : mentioned n) :
    s.hasLocal n = t.hasLocal n := by
  rw [hasLocal_eq, hasLocal_eq, h.innermost n hn]

/-- A mentioned name is found in both or in neither, and captured in both or in neither. -/
theorem resolve (h : Alike mentioned s t) {n : Name} (hn : mentioned n) (caps : CaptureSet) :
    s.resolve n caps = t.resolve n caps := by
  have houter : s.outerType? n = t.outerType? n := Frame.AgreeOn.findSome? h.outer hn
  unfold ScopeStack.resolve
  rw [h.innermost n hn, houter]

/-- Captures of mentioned names are passed on alike. -/
theorem forward (h : Alike mentioned s t) {inner : CaptureSet} (hinner : ∀ n ∈ inner, mentioned n)
    (caps : CaptureSet) : (inner.forward s caps).1 = (inner.forward t caps).1 := by
  refine Std.ExtTreeMap.ext_getElem? fun n => ?_
  rw [CaptureSet.getElem?_forward, CaptureSet.getElem?_forward]
  by_cases hn : n ∈ inner
  · rw [h.hasLocal (hinner n hn)]
  · rw [Std.ExtTreeMap.getElem?_eq_none hn, ite_self, ite_self]

/-- Leaving a closure is possible in both or in neither, and leaves stacks that are alike. -/
theorem pop? (h : Alike mentioned s t) : Option.Rel (Alike mentioned) s.pop? t.pop? := by
  obtain ⟨_, outer₁⟩ := s
  obtain ⟨_, outer₂⟩ := t
  cases h.outer with
  | nil => exact .none
  | cons hframe hrest => exact .some ⟨hframe, hrest⟩

end Alike

end ScopeStack

/-! ### Two runs side by side -/

/-- States that differ at most in names that are not mentioned, and have captured no other. -/
structure CompileState.Alike (mentioned : Name → Prop) (s t : CompileState) : Prop where
  scopes : s.scopes.Alike mentioned t.scopes
  captures : s.captures = t.captures
  captured : ∀ n ∈ s.captures, mentioned n
  depth : s.depth = t.depth
  stats : s.stats = t.stats

namespace CompileState.Alike

variable {s t : CompileState}

theorem deeper (h : Alike mentioned s t) : Alike mentioned s.deeper t.deeper where
  scopes := h.scopes
  captures := h.captures
  captured := h.captured
  depth := congrArg (· + 1) h.depth
  stats := by rw [CompileState.deeper, CompileState.deeper, h.stats, h.depth]

theorem shallower (h : Alike mentioned s t) :
    Alike mentioned { s with depth := s.depth - 1 } { t with depth := t.depth - 1 } :=
  { h with depth := congrArg (· - 1) h.depth }

theorem entered (h : Alike mentioned s t) (params : List Name) :
    Alike mentioned (s.entered params) (t.entered params) where
  scopes := h.scopes.push.bindAll params .any
  captures := rfl
  captured _ hn := absurd hn Std.ExtTreeMap.not_mem_empty
  depth := h.depth
  stats := h.stats

/-- The states after a closure, when the code in it ended in the states `s` and `t`. -/
theorem left (h : Alike mentioned s t) {scopes₁ scopes₂ : ScopeStack}
    (hscopes : scopes₁.Alike mentioned scopes₂) {caps : CaptureSet} (hcaps : ∀ n ∈ caps, mentioned n) :
    Alike mentioned (s.left scopes₁ caps) (t.left scopes₂ caps) where
  scopes := hscopes
  captures := rfl
  captured := hcaps
  depth := h.depth
  stats := by
    unfold CompileState.left
    rw [h.stats, h.captures]

end CompileState.Alike

/-- From states that are alike, the steps give the same and end in states that are alike. -/
def RunsAlike (mentioned : Name → Prop) (x y : CompileM α) : Prop :=
  ∀ s t : CompileState, s.Alike mentioned t → ∃ r s' t',
    x.outcome s = (r, s') ∧ y.outcome t = (r, t') ∧ s'.Alike mentioned t'

namespace RunsAlike

theorem sequence {x y : CompileM α} {f g : α → CompileM β} (hxy : RunsAlike mentioned x y)
    (hfg : ∀ a, x.CanGive a → RunsAlike mentioned (f a) (g a)) :
    RunsAlike mentioned (x >>= f) (y >>= g) := by
  intro s t hst
  obtain ⟨r, s', t', hx, hy, hst'⟩ := hxy s t hst
  rw [CompileM.outcome_bind, CompileM.outcome_bind, hx, hy]
  cases r with
  | error e => exact ⟨.error e, s', t', rfl, rfl, hst'⟩
  | ok a => exact hfg a ⟨s, s', hx⟩ s' t' hst'

theorem resolve {n : Name} (hn : mentioned n) :
    RunsAlike mentioned (CompileM.resolve n) (CompileM.resolve n) := by
  intro s t hst
  rw [CompileM.outcome_resolve, CompileM.outcome_resolve, hst.scopes.resolve hn, hst.captures]
  refine ⟨_, _, _, rfl, rfl, { hst with captures := rfl, captured := ?_ }⟩
  intro m hm
  rw [Std.ExtTreeMap.mem_iff_isSome_getElem?, ScopeStack.getElem?_resolve, Option.isSome_or,
    Bool.or_eq_true] at hm
  rcases hm with hbefore | hadded
  · refine hst.captured m ?_
    rwa [hst.captures, Std.ExtTreeMap.mem_iff_isSome_getElem?]
  · by_cases hnm : n = m
    · rwa [← hnm]
    · rw [if_neg hnm] at hadded
      cases hadded

theorem nested {x y : CompileM α} (o : Options) (pos : Pos) (h : RunsAlike mentioned x y) :
    RunsAlike mentioned (CompileM.nested o pos x) (CompileM.nested o pos y) := by
  intro s t hst
  rw [CompileM.outcome_nested, CompileM.outcome_nested, hst.depth]
  by_cases hexceeds : o.exceeds (t.depth + 1) = true
  · rw [if_pos hexceeds, if_pos hexceeds]
    exact ⟨_, s, t, rfl, rfl, hst⟩
  · rw [if_neg hexceeds, if_neg hexceeds]
    obtain ⟨r, s', t', hx, hy, hst'⟩ := h s.deeper t.deeper hst.deeper
    rw [hx, hy]
    exact ⟨r, _, _, rfl, rfl, hst'.shallower⟩

/-- **A closure literal.** Its code starts with the parameters bound on both sides, and ends with the
same captures, all of them mentioned. -/
theorem closure {x y : CompileM (List (ValuesOp F))} (o : Options) (pos : Pos) (params : List Name)
    (h : RunsAlike mentioned x y) : ∀ s t : CompileState, s.Alike mentioned t →
      ∃ r s' t', (closureAround o pos params x).outcome s = (r, s') ∧
        (closureAround o pos params y).outcome t = (r, t') ∧ s'.Alike mentioned t' ∧
        ∀ c, r = .ok c → ∀ n ∈ c.captures, mentioned n := by
  intro s t hst
  rw [outcome_closureAround, outcome_closureAround, hst.depth]
  by_cases hexceeds : o.exceeds (t.depth + 1) = true
  · rw [if_pos hexceeds, if_pos hexceeds]
    exact ⟨_, s, t, rfl, rfl, hst, fun c hc => by cases hc⟩
  · rw [if_neg hexceeds, if_neg hexceeds]
    obtain ⟨r, s', t', hx, hy, hst'⟩ :=
      h (s.deeper.entered params) (t.deeper.entered params) (hst.deeper.entered params)
    rw [hx, hy]
    cases r with
    | error e => exact ⟨_, _, _, rfl, rfl, hst'.shallower, fun c hc => by cases hc⟩
    | ok pipelines =>
      have hcaptured : ∀ n ∈ t.captures, mentioned n := hst.captures ▸ hst.captured
      have hpop := hst'.scopes.pop?
      dsimp only
      rw [hst.captures, hst'.captures]
      generalize s'.scopes.pop? = left₁ at hpop ⊢
      generalize t'.scopes.pop? = left₂ at hpop ⊢
      cases hpop with
      | none =>
        refine ⟨_, _, _, rfl, rfl, ?_, fun c hc => by cases hc⟩
        exact { hst'.shallower with captures := rfl, captured := hcaptured }
      | some hscopes =>
        refine ⟨_, _, _, rfl, rfl, (hst'.left hscopes hcaptured).shallower, fun c hc => ?_⟩
        obtain rfl := Except.ok.inj hc
        exact hst'.captures ▸ hst'.captured

theorem forwarding {x y : CompileM (List (ValuesOp F))} (o : Options) (pos : Pos) (params : List Name)
    (h : RunsAlike mentioned x y) : RunsAlike mentioned (forwarding (closureAround o pos params x))
      (forwarding (closureAround o pos params y)) := by
  intro s t hst
  obtain ⟨r, s', t', hx, hy, hst', hmentioned⟩ := h.closure o pos params s t hst
  rw [ShellOps.forwarding, ShellOps.forwarding, CompileM.outcome_bind, CompileM.outcome_bind, hx, hy]
  cases r with
  | error e => exact ⟨.error e, s', t', rfl, rfl, hst'⟩
  | ok c =>
    have hinner := hmentioned c rfl
    refine ⟨_, _, _, rfl, rfl, { hst' with captures := ?_, captured := fun n hn => ?_ }⟩
    · exact (hst'.scopes.forward hinner _).trans (by rw [hst'.captures])
    · have hn : ((c.captures.forward s'.scopes s'.captures).1[n]?).isSome :=
        Std.ExtTreeMap.mem_iff_isSome_getElem?.1 hn
      rw [CaptureSet.getElem?_forward, Option.isSome_or, Bool.or_eq_true] at hn
      rcases hn with hbefore | hadded
      · exact hst'.captured n (Std.ExtTreeMap.mem_iff_isSome_getElem?.2 hbefore)
      · split at hadded
        · cases hadded
        · exact hinner n (Std.ExtTreeMap.mem_iff_isSome_getElem?.2 hadded)

end RunsAlike

/-- Everything a compilation is made of does the same in states that are alike, as long as it looks up
mentioned names only. -/
theorem runsAlike (mentioned : Name → Prop) (o : Options) :
    StepRelation ⟨fun _ => True, mentioned⟩ o o (RunsAlike mentioned) where
  pure a := fun s t hst => ⟨.ok a, s, t, rfl, rfl, hst⟩
  sequence := RunsAlike.sequence
  reject _ _ := fun s t hst => ⟨_, s, t, rfl, rfl, hst⟩
  malformed _ := fun s t hst => ⟨_, s, t, rfl, rfl, hst⟩
  count f _ := fun s t hst => ⟨.ok (), _, _, rfl, rfl, { hst with stats := congrArg f hst.stats }⟩
  bindName n k := fun s t hst => ⟨.ok (), _, _, rfl, rfl, { hst with scopes := hst.scopes.bind n k }⟩
  unbind n := fun s t hst => ⟨.ok (), _, _, rfl, rfl, { hst with scopes := hst.scopes.unbind n }⟩
  hasLocal hn := fun s t hst =>
    ⟨.ok (s.scopes.hasLocal _), s, t, rfl, by rw [hst.scopes.hasLocal hn]; rfl, hst⟩
  resolve hn := RunsAlike.resolve hn
  nested pos h := h.nested o pos
  closure pos params h := fun s t hst => by
    obtain ⟨r, s', t', hx, hy, hst', -⟩ := h.closure o pos params s t hst
    exact ⟨r, s', t', hx, hy, hst'⟩
  forwarding pos params h := h.forwarding o pos params

/-! ### Whole scripts -/

/-- The op, or the place and the message of the complaint, and the statistics: an answer without the
name and the text of the script. -/
def CompileResult.verdict (r : CompileResult F) : Except (Pos × Bytes) (ValuesOp F) × Stats :=
  (r.outcome.mapError fun d => (d.pos, d.message), r.stats)

theorem CompileState.alike_ofRoot {root₁ root₂ : Frame} (h : root₁.AgreeOn mentioned root₂) :
    (CompileState.ofRoot root₁).Alike mentioned (.ofRoot root₂) where
  scopes := ⟨h, .nil⟩
  captures := rfl
  captured _ hn := absurd hn Std.ExtTreeMap.not_mem_empty
  depth := rfl
  stats := rfl

/-- **Only mentioned names matter.** If two root frames agree on every name that a script mentions
(variables, strings, and the functions that strings and sigils name), the script has the same answer
with both, whatever it is called and whatever its text: the same op, or the same complaint at the same
place, and the same statistics, or it is broken in the same way. -/
theorem only_mentioned_names_matter (c : Compiler F) (hcore : c.registry.CoreOnly) (chunk : Chunk)
    (source₁ source₂ : Source) (root₁ root₂ : Frame)
    (h : ∀ n ∈ mentionsInPipelines chunk.pipelines, root₁[n]? = root₂[n]?) :
    (c.compile source₁ chunk root₁).map CompileResult.verdict =
      (c.compile source₂ chunk root₂).map CompileResult.verdict := by
  let env₁ : Env F := ⟨c.registry, c.options, source₁⟩
  let env₂ : Env F := ⟨c.registry, c.options, source₂⟩
  let mentioned (n : Name) : Prop := n ∈ mentionsInPipelines chunk.pipelines
  have hagree : env₁.Agree env₂ := ⟨rfl, rfl, rfl, rfl⟩
  have halike : RunsAlike mentioned (compilePipelines env₁ chunk.pipelines)
      (compilePipelines env₂ chunk.pipelines) :=
    compilePipelines_related (runsAlike mentioned c.options) hagree hcore chunk.pipelines
      ⟨fun _ _ => trivial, fun _ hn => hn⟩
  obtain ⟨r, s, t, hs, ht, hst⟩ := halike _ _ (CompileState.alike_ofRoot h)
  rw [compile_eq, compile_eq, hs, ht]
  rcases r with (⟨pos, cause⟩ | cause) | ops
  · exact congrArg (fun stats => Except.ok (Except.error (pos, cause.message), stats)) hst.stats
  · rfl
  · exact congrArg (fun stats => Except.ok (Except.ok (ValuesOp.chunk ops chunk.pos), stats)) hst.stats

/-- `var y = $x`, then `echo {|q| put $x $y}`. -/
def letAndCapture : Chunk :=
  codeOf [formOf "var" [.string 0 (utf8 "y"), .string 0 (utf8 "="), .variable 0 (utf8 "x")],
    formOf "echo" [.closure 0 (some (closureOf ["q"]
      [formOf "put" [.variable 0 (utf8 "x"), .variable 0 (utf8 "y")]]))]]

/-- The second root frame binds the parameter of the closure, which the script does not mention, and a
function that it does not call. -/
theorem only_mentioned_names_matter_capture :
    (coreCompiler.compile ⟨utf8 "a", []⟩ letAndCapture {(utf8 "x", .list)} :
        Except Malformed (CompileResult Unit)).map CompileResult.verdict =
      (coreCompiler.compile ⟨utf8 "b", utf8 "text"⟩ letAndCapture
        {(utf8 "x", .list), (utf8 "q", .number), (utf8 "fn-get", .closure)}).map CompileResult.verdict ∧
    ∃ r, (coreCompiler.compile ⟨utf8 "a", []⟩ letAndCapture {(utf8 "x", .list)} :
        Except Malformed (CompileResult Unit)) = .ok r ∧ r.isOk := by
  refine ⟨?_, exists_answer coreCompiler _ _ _ CompileResult.isOk (by decide +kernel)⟩
  exact only_mentioned_names_matter coreCompiler coreOnly_coreEnv letAndCapture _ _ _ _ (by decide +kernel)

end ShellOps
