/-
# The depth limit is sharp

A compilation that is not stopped by its depth limit reaches some greatest depth `k`, which is among
its statistics. Any limit from `k` on gives the same answer with the same statistics; any smaller one
stops the compilation with a complaint about the depth, and then the greatest depth is the limit itself.

The proof compares a run under a limit with the run without one, step by step (`Capped`). The run
without a limit comes back to its depth after each step, and its greatest depth only grows. As long as
the greatest depth is within the limit, the other run does the same; the step that takes it past the
limit is where the other run stops, and there depth, greatest depth and limit are equal.
-/
import ShellOps.Proofs.Relations

namespace ShellOps

variable {α β F : Type} {s : CompileState} {d : Nat}

namespace Options

/-- The options with another depth limit. -/
def limitedTo (o : Options) (limit : Int) : Options := { o with maxDepth := limit }

/-- The options without a depth limit. -/
def unlimited (o : Options) : Options := o.limitedTo (-1)

theorem exceeds_unlimited (o : Options) (n : Nat) : o.unlimited.exceeds n = false := by
  simp [exceeds, unlimited, limitedTo]

theorem exceeds_limitedTo (o : Options) (d n : Nat) : (o.limitedTo d).exceeds n = decide (d < n) := by
  simp [exceeds, limitedTo]

end Options

/-- The depth is no more than the greatest depth so far. -/
def CompileState.DepthCounted (s : CompileState) : Prop := s.depth ≤ s.stats.maxDepth

/-- The step `x`, which has no depth limit, and the step `y`, which has the limit `d`. -/
structure Capped (d : Nat) (x y : CompileM α) : Prop where
  depth : ∀ s : CompileState, (x.outcome s).2.depth = s.depth
  grows : ∀ s : CompileState, s.stats.maxDepth ≤ (x.outcome s).2.stats.maxDepth
  same : ∀ {s : CompileState}, s.DepthCounted → (x.outcome s).2.stats.maxDepth ≤ d →
    y.outcome s = x.outcome s
  stopped : ∀ {s : CompileState}, s.DepthCounted → s.stats.maxDepth ≤ d →
    d < (x.outcome s).2.stats.maxDepth →
    ∃ pos t, y.outcome s = (.error (.rejected pos .tooDeep), t) ∧ t.stats.maxDepth = d

namespace Capped

/-- After a step the depth is still counted. -/
theorem counted {x y : CompileM α} (h : Capped d x y) (hs : s.DepthCounted) :
    (x.outcome s).2.DepthCounted := by
  have hdepth := h.depth s
  have hgrows := h.grows s
  unfold CompileState.DepthCounted at hs ⊢
  omega

/-- A step that leaves depth and greatest depth alone. -/
theorem quiet {x : CompileM α} (hdepth : ∀ s, (x.outcome s).2.depth = s.depth)
    (hmax : ∀ s, (x.outcome s).2.stats.maxDepth = s.stats.maxDepth) : Capped d x x where
  depth := hdepth
  grows s := Nat.le_of_eq (hmax s).symm
  same _ _ := rfl
  stopped := by
    intro s _ hle hlt
    rw [hmax s] at hlt
    omega

theorem sequence {x y : CompileM α} {f g : α → CompileM β} (h : Capped d x y)
    (hfg : ∀ a, x.CanGive a → Capped d (f a) (g a)) : Capped d (x >>= f) (y >>= g) where
  depth := by
    intro s
    have hx := h.depth s
    rw [CompileM.outcome_bind]
    rcases hxs : x.outcome s with ⟨e | a, t⟩
    · rw [hxs] at hx
      exact hx
    · rw [hxs] at hx
      exact ((hfg a ⟨s, t, hxs⟩).depth t).trans hx
  grows := by
    intro s
    have hx := h.grows s
    rw [CompileM.outcome_bind]
    rcases hxs : x.outcome s with ⟨e | a, t⟩
    · rw [hxs] at hx
      exact hx
    · rw [hxs] at hx
      exact Nat.le_trans hx ((hfg a ⟨s, t, hxs⟩).grows t)
  same := by
    intro s hs hle
    have ht := h.counted hs
    have hsame := h.same hs
    rw [CompileM.outcome_bind] at hle
    rw [CompileM.outcome_bind, CompileM.outcome_bind]
    rcases hxs : x.outcome s with ⟨e | a, t⟩
    · rw [hxs] at hsame hle
      rw [hsame hle]
    · rw [hxs] at ht hsame hle
      have hrest := hfg a ⟨s, t, hxs⟩
      rw [hsame (Nat.le_trans (hrest.grows t) hle)]
      exact hrest.same ht hle
  stopped := by
    intro s hs hle hlt
    have ht := h.counted hs
    have hsame := h.same hs
    have hstopped := h.stopped hs hle
    rw [CompileM.outcome_bind] at hlt
    rw [CompileM.outcome_bind]
    rcases hxs : x.outcome s with ⟨e | a, t⟩
    · rw [hxs] at hstopped hlt
      obtain ⟨pos, u, hu, hmax⟩ := hstopped hlt
      exact ⟨pos, u, by rw [hu], hmax⟩
    · rw [hxs] at ht hsame hstopped hlt
      by_cases hcap : t.stats.maxDepth ≤ d
      · rw [hsame hcap]
        exact (hfg a ⟨s, t, hxs⟩).stopped ht hcap hlt
      · obtain ⟨pos, u, hu, hmax⟩ := hstopped (Nat.lt_of_not_le hcap)
        exact ⟨pos, u, by rw [hu], hmax⟩

/-- **One level deeper.** A node that is too deep for the limit stands at the limit: its depth would be
the first above it. -/
theorem nested {x y : CompileM α} (o : Options) (pos : Pos) (h : Capped d x y) :
    Capped d (CompileM.nested o.unlimited pos x) (CompileM.nested (o.limitedTo d) pos y) := by
  have hunlimited (s : CompileState) : (CompileM.nested o.unlimited pos x).outcome s =
      ((x.outcome s.deeper).1, { (x.outcome s.deeper).2 with depth := (x.outcome s.deeper).2.depth - 1 }) := by
    rw [CompileM.outcome_nested, o.exceeds_unlimited, if_neg Bool.false_ne_true]
  have hlimited (s : CompileState) (hs : s.depth + 1 ≤ d) :
      (CompileM.nested (o.limitedTo d) pos y).outcome s =
      ((y.outcome s.deeper).1, { (y.outcome s.deeper).2 with depth := (y.outcome s.deeper).2.depth - 1 }) := by
    have hwithin : ¬ (o.limitedTo d).exceeds (s.depth + 1) = true := by
      rw [o.exceeds_limitedTo, decide_eq_true_eq]
      omega
    rw [CompileM.outcome_nested, if_neg hwithin]
  have hdeeper (s : CompileState) : s.deeper.stats.maxDepth = max s.stats.maxDepth (s.depth + 1) := rfl
  have hcounted (s : CompileState) : s.deeper.DepthCounted := Nat.le_max_right _ _
  refine ⟨fun s => ?_, fun s => ?_, fun {s} hs hle => ?_, fun {s} hs hle hlt => ?_⟩
  · rw [hunlimited]
    show (x.outcome s.deeper).2.depth - 1 = s.depth
    rw [h.depth]
    rfl
  · have hgrows := h.grows s.deeper
    rw [hdeeper] at hgrows
    rw [hunlimited]
    show s.stats.maxDepth ≤ (x.outcome s.deeper).2.stats.maxDepth
    omega
  · have hgrows := h.grows s.deeper
    rw [hdeeper] at hgrows
    rw [hunlimited] at hle ⊢
    have hend : (x.outcome s.deeper).2.stats.maxDepth ≤ d := hle
    rw [hlimited s (by omega), h.same (hcounted s) hend]
  · rw [hunlimited] at hlt
    have hend : d < (x.outcome s.deeper).2.stats.maxDepth := hlt
    by_cases hwithin : s.depth + 1 ≤ d
    · obtain ⟨at', t, ht, hmax⟩ := h.stopped (hcounted s) (by rw [hdeeper]; omega) hend
      exact ⟨at', { t with depth := t.depth - 1 }, by rw [hlimited s hwithin, ht], hmax⟩
    · have hexceeds : (o.limitedTo d).exceeds (s.depth + 1) = true := by
        rw [o.exceeds_limitedTo, decide_eq_true_eq]
        omega
      refine ⟨pos, s, by rw [CompileM.outcome_nested, if_pos hexceeds], ?_⟩
      unfold CompileState.DepthCounted at hs
      omega

theorem leaveClosure (outer : CaptureSet) :
    Capped d (CompileM.leaveClosure outer) (CompileM.leaveClosure outer) := by
  refine quiet (fun s => ?_) (fun s => ?_)
  all_goals
    rw [CompileM.outcome_leaveClosure]
    cases s.scopes.pop? <;> rfl

theorem closure {x y : CompileM (List (ValuesOp F))} (o : Options) (pos : Pos) (params : List Name)
    (h : Capped d x y) :
    Capped d (closureAround o.unlimited pos params x) (closureAround (o.limitedTo d) pos params y) := by
  refine nested o pos (sequence (quiet (fun _ => rfl) fun _ => rfl) fun outer _ => ?_)
  refine sequence h fun pipelines _ => sequence (leaveClosure outer) fun captures _ => ?_
  exact quiet (fun _ => rfl) fun _ => rfl

theorem forwarding {x y : CompileM (List (ValuesOp F))} (o : Options) (pos : Pos) (params : List Name)
    (h : Capped d x y) : Capped d (forwarding (closureAround o.unlimited pos params x))
      (forwarding (closureAround (o.limitedTo d) pos params y)) := by
  refine sequence (h.closure o pos params) fun c _ => ?_
  refine sequence (quiet (fun _ => rfl) fun _ => rfl) fun _ _ => ?_
  exact quiet (fun _ => rfl) fun _ => rfl

end Capped

/-- Everything a compilation is made of does the same under a limit until the limit stops it. -/
theorem capped (o : Options) (d : Nat) :
    StepRelation .all o.unlimited (o.limitedTo d) (Capped d) where
  pure _ := .quiet (fun _ => rfl) fun _ => rfl
  sequence := Capped.sequence
  reject _ _ := .quiet (fun _ => rfl) fun _ => rfl
  malformed _ := .quiet (fun _ => rfl) fun _ => rfl
  count _ hf := .quiet (fun _ => rfl) fun s => (hf s.stats).1
  bindName _ _ := .quiet (fun _ => rfl) fun _ => rfl
  unbind _ := .quiet (fun _ => rfl) fun _ => rfl
  hasLocal _ := .quiet (fun _ => rfl) fun _ => rfl
  resolve _ := .quiet (fun _ => rfl) fun _ => rfl
  nested pos h := h.nested o pos
  closure pos params h := h.closure o pos params
  forwarding pos params h := h.forwarding o pos params

/-- The environment with other options for the depth. -/
def Env.limitedTo (env : Env F) (limit : Int) : Env F :=
  { env with options := env.options.limitedTo limit }

theorem compilePipelines_capped (env : Env F) (hcore : env.registry.CoreOnly) (ps : List Pipeline)
    (d : Nat) :
    Capped d (compilePipelines (env.limitedTo (-1)) ps) (compilePipelines (env.limitedTo d) ps) := by
  have hagree : (env.limitedTo (-1)).Agree (env.limitedTo d) := ⟨rfl, rfl, rfl, rfl⟩
  exact compilePipelines_related (capped env.options d) hagree hcore ps (Allowance.allows_all _ _)

/-! ### Whole scripts -/

/-- The compiler with another depth limit. -/
def Compiler.limitedTo (c : Compiler F) (limit : Int) : Compiler F :=
  { c with options := c.options.limitedTo limit }

/-- What the author of the script is told, unless it compiles. -/
def CompileResult.message? (r : CompileResult F) : Option Bytes :=
  match r.outcome with
  | .ok _ => none
  | .error e => some e.message

section

variable {c : Compiler F} {source : Source} {chunk : Chunk} {root : Frame}

/-- The statistics of an answer are those of the run. -/
theorem stats_of_compile {r : CompileResult F} (h : c.compile source chunk root = .ok r) :
    r.stats = ((compilePipelines ⟨c.registry, c.options, source⟩ chunk.pipelines).outcome
      (.ofRoot root)).2.stats := by
  rw [compile_eq] at h
  generalize (compilePipelines ⟨c.registry, c.options, source⟩ chunk.pipelines).outcome (.ofRoot root) =
    out at h ⊢
  rcases out with ⟨(⟨pos, cause⟩ | cause) | ops, s⟩
  · obtain rfl := Except.ok.inj h
    rfl
  · cases h
  · obtain rfl := Except.ok.inj h
    rfl

/-- A run that ends in a rejection is answered with a diagnostic. -/
theorem compile_of_rejected {pos : Pos} {cause : Rejection} {s : CompileState}
    (h : (compilePipelines ⟨c.registry, c.options, source⟩ chunk.pipelines).outcome (.ofRoot root) =
      (.error (.rejected pos cause), s)) :
    c.compile source chunk root = .ok ⟨.error (cause.diagnose source pos), s.stats⟩ := by
  rw [compile_eq, h]

/-- Runs that end alike are answered alike. -/
theorem compile_congr {c' : Compiler F}
    (h : (compilePipelines ⟨c.registry, c.options, source⟩ chunk.pipelines).outcome (.ofRoot root) =
      (compilePipelines ⟨c'.registry, c'.options, source⟩ chunk.pipelines).outcome (.ofRoot root)) :
    c.compile source chunk root = c'.compile source chunk root := by
  rw [compile_eq, compile_eq, h]

end

/-- **The depth limit is sharp.** If a script is answered under some limit with an op, or with a
complaint that is not about the depth, and `k` is the greatest depth of that compilation, then every
limit from `k` on gives the same answer and the same statistics, and under every smaller one the author
is told that the nesting is too deep, and the greatest depth is that limit. -/
theorem depth_limit_sharp (c : Compiler F) (hcore : c.registry.CoreOnly) (source : Source)
    (chunk : Chunk) (root : Frame) (m : Nat) {r : CompileResult F}
    (h : (c.limitedTo m).compile source chunk root = .ok r)
    (hother : r.message? ≠ some (utf8 "maximum nesting depth exceeded")) :
    (∀ d : Nat, r.stats.maxDepth ≤ d → (c.limitedTo d).compile source chunk root = .ok r) ∧
    ∀ d : Nat, d < r.stats.maxDepth → ∃ r', (c.limitedTo d).compile source chunk root = .ok r' ∧
      r'.message? = some (utf8 "maximum nesting depth exceeded") ∧ r'.stats.maxDepth = d := by
  let env : Env F := ⟨c.registry, c.options, source⟩
  let free := (compilePipelines (env.limitedTo (-1)) chunk.pipelines).outcome (.ofRoot root)
  have hcapped := compilePipelines_capped env hcore chunk.pipelines
  have hroot : (CompileState.ofRoot root).DepthCounted := Nat.le_refl 0
  have hsame (d : Nat) (hd : free.2.stats.maxDepth ≤ d) :
      (compilePipelines (env.limitedTo d) chunk.pipelines).outcome (.ofRoot root) = free :=
    (hcapped d).same hroot hd
  have hstopped (d : Nat) (hd : d < free.2.stats.maxDepth) :
      ∃ r', (c.limitedTo d).compile source chunk root = .ok r' ∧
        r'.message? = some (utf8 "maximum nesting depth exceeded") ∧ r'.stats.maxDepth = d := by
    obtain ⟨pos, t, ht, hmax⟩ := (hcapped d).stopped hroot (Nat.zero_le d) hd
    exact ⟨_, compile_of_rejected ht, rfl, hmax⟩
  -- the run under `m` was not stopped, so it is the run without a limit
  have hm : free.2.stats.maxDepth ≤ m := by
    by_contra hlt
    obtain ⟨r', hr', hmessage, -⟩ := hstopped m (Nat.lt_of_not_le hlt)
    rw [hr'] at h
    obtain rfl := Except.ok.inj h
    exact hother hmessage
  have hk : r.stats.maxDepth = free.2.stats.maxDepth := by
    rw [stats_of_compile h]
    exact congrArg (·.2.stats.maxDepth) (hsame m hm)
  rw [hk]
  refine ⟨fun d hd => ?_, hstopped⟩
  rw [← h]
  exact compile_congr ((hsame d hd).trans (hsame m hm).symm)

/-- `fn f {|p| echo {put $p $q}}`: closures that are reached through `fn` and through a word, and a
variable that nothing binds. -/
def nestedStray : Chunk :=
  codeOf [formOf "fn" [.string 0 (utf8 "f"), .closure 0 (some (closureOf ["p"]
    [formOf "echo" [.closure 0 (some (closureOf []
      [formOf "put" [.variable 0 (utf8 "p"), .variable 0 (utf8 "q")]]))]]))]]

theorem depth_limit_sharp_stray :
    ∃ r, (coreCompiler.limitedTo 256 : Compiler Unit).compile ⟨[], []⟩ nestedStray ∅ = .ok r ∧
      r.message? = some (utf8 "undefined variable $q") ∧ r.stats.maxDepth = 12 ∧
      (coreCompiler.limitedTo 12).compile ⟨[], []⟩ nestedStray ∅ = .ok r ∧
      ∃ r', (coreCompiler.limitedTo 11 : Compiler Unit).compile ⟨[], []⟩ nestedStray ∅ = .ok r' ∧
        r'.message? = some (utf8 "maximum nesting depth exceeded") ∧ r'.stats.maxDepth = 11 := by
  obtain ⟨r, hr, hp⟩ := exists_answer (coreCompiler.limitedTo (256 : Nat) : Compiler Unit) ⟨[], []⟩
    nestedStray ∅ (fun r => r.message? = some (utf8 "undefined variable $q") ∧ r.stats.maxDepth = 12)
    (by decide +kernel)
  obtain ⟨hmessage, hk⟩ := of_decide_eq_true hp
  have hother : r.message? ≠ some (utf8 "maximum nesting depth exceeded") := by
    rw [hmessage]
    decide
  obtain ⟨hsame, hstopped⟩ := depth_limit_sharp (coreCompiler : Compiler Unit) coreOnly_coreEnv ⟨[], []⟩
    nestedStray ∅ 256 hr hother
  refine ⟨r, hr, hmessage, hk, hsame 12 ?_, hstopped 11 ?_⟩
  all_goals omega

end ShellOps
