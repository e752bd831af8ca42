/-
# Captures agree with the frames

A name is captured with the kind that the nearest frame around the innermost one gives it. This
holds in every state a compilation unit can be in, also after operations that failed: a failed
closure leaves its frame on the stack and the captures of the code around it are lost, but those
that are left are those of the code of that closure, seen from its frame.

The proof carries two facts through every step: captures stay coherent whether the step succeeds or
fails, and a step that succeeds leaves the frames around the innermost one as they were. The second
is what makes going back to the captures of the code around a closure sound.
-/
import ShellOps.Proofs.Relations

namespace ShellOps

variable {α β F : Type}

/-- Every captured name is bound around the innermost frame, and the nearest of the frames that
bind it there gives it the kind it was captured with. -/
def CompileState.Coherent (s : CompileState) : Prop :=
  ∀ n t, s.captures[n]? = some t → s.scopes.outerType? n = some t

theorem CompileState.coherent_ofRoot (root : Frame) : (CompileState.ofRoot root).Coherent := by
  intro n t h
  simp [CompileState.ofRoot] at h

theorem CompileState.coherent_entered (s : CompileState) (params : List Name) :
    (s.entered params).Coherent := by
  intro n t h
  simp at h

/-- Coherence reads the captures and the frames around the innermost one only. -/
theorem CompileState.Coherent.of_eq {s t : CompileState} (h : s.Coherent)
    (hcaptures : t.captures = s.captures) (houter : t.scopes.outer = s.scopes.outer) :
    t.Coherent := by
  intro n u hn
  rw [hcaptures] at hn
  have hs := h n u hn
  unfold ScopeStack.outerType? at hs ⊢
  rw [houter, hs]

/-- With the root frame alone there is nothing to capture. -/
theorem CompileState.Coherent.captures_eq_empty {s : CompileState} (h : s.Coherent)
    (houter : s.scopes.outer = []) : s.captures = ∅ := by
  refine Std.ExtTreeMap.ext_getElem? fun n => ?_
  cases hn : s.captures[n]? with
  | none => simp
  | some t =>
    have ht := h n t hn
    simp [ScopeStack.outerType?, houter] at ht

/-- The step keeps captures coherent, and if it succeeds it leaves the frames around the innermost
one alone. -/
structure KeepsCoherent (x : CompileM α) : Prop where
  coherent : ∀ {s : CompileState}, s.Coherent → (x.outcome s).2.Coherent
  outer : ∀ {s : CompileState} {a : α} {s' : CompileState},
    x.Gives s a s' → s'.scopes.outer = s.scopes.outer

/-! ### Each kind of step -/

namespace KeepsCoherent

theorem sequence {x : CompileM α} {f : α → CompileM β} (hx : KeepsCoherent x)
    (hf : ∀ a, x.CanGive a → KeepsCoherent (f a)) : KeepsCoherent (x >>= f) where
  coherent := by
    intro s hs
    have ht := hx.coherent hs
    rw [CompileM.outcome_bind]
    rcases hxs : x.outcome s with ⟨e | a, t⟩
    · simpa [hxs] using ht
    · rw [hxs] at ht
      exact (hf a ⟨s, t, hxs⟩).coherent ht
  outer := by
    intro s b s' h
    obtain ⟨a, t, ha, hb⟩ := CompileM.gives_bind.1 h
    rw [(hf a ⟨s, t, ha⟩).outer hb, hx.outer ha]

theorem resolve (n : Name) : KeepsCoherent (CompileM.resolve n) where
  coherent := by
    intro s hs m t hm
    rw [CompileM.outcome_resolve] at hm ⊢
    simp only at hm ⊢
    cases hl : s.scopes.innermost[n]? with
    | some u =>
      rw [s.scopes.resolve_of_local s.captures hl] at hm
      exact hs m t hm
    | none =>
      cases ho : s.scopes.outerType? n with
      | none =>
        rw [s.scopes.resolve_of_unbound s.captures hl ho] at hm
        exact hs m t hm
      | some u =>
        rw [s.scopes.resolve_of_outer s.captures hl ho, getElem?_insertIfNew] at hm
        rcases Option.or_eq_some_iff.1 hm with hc | ⟨-, hnew⟩
        · exact hs m t hc
        · by_cases hnm : n = m
          · subst hnm
            rw [if_pos rfl] at hnew
            rw [ho, hnew]
          · simp [hnm] at hnew
  outer := by
    intro s a s' h
    rw [(CompileM.gives_resolve.1 h).2]

theorem nested {x : CompileM α} (o : Options) (pos : Pos) (hx : KeepsCoherent x) :
    KeepsCoherent (CompileM.nested o pos x) where
  coherent := by
    intro s hs
    rw [CompileM.outcome_nested]
    split
    · exact hs
    · exact (hx.coherent (hs.of_eq rfl rfl : s.deeper.Coherent)).of_eq rfl rfl
  outer := by
    intro s a s' h
    obtain ⟨-, t, ht, rfl⟩ := CompileM.gives_nested.1 h
    have houter := hx.outer ht
    exact houter

/-- When the code of a closure has compiled, the frames around its own are those around the closure. -/
theorem outer_after_body {params : List Name} {body : CompileM (List (ValuesOp F))}
    (hbody : KeepsCoherent body) {s t : CompileState} {pipelines : List (ValuesOp F)}
    (h : body.Gives (s.deeper.entered params) pipelines t) : t.scopes.outer = s.scopes.frames := by
  rw [hbody.outer h]
  exact s.deeper.outer_entered params

/-- A closure literal that compiles leaves frames and captures as they were. -/
theorem state_after_closure {o : Options} {pos : Pos} {params : List Name}
    {body : CompileM (List (ValuesOp F))} (hbody : KeepsCoherent body) {s s' : CompileState}
    {c : CompiledClosure F} (h : (closureAround o pos params body).Gives s c s') :
    s'.scopes = s.scopes ∧ s'.captures = s.captures ∧
      ∀ n t, c.captures[n]? = some t → s.scopes.type? n = some t := by
  obtain ⟨pipelines, t, scopes, hb, hpop, rfl, rfl⟩ := gives_closureAround h
  have houter : t.scopes.outer = s.scopes.frames := hbody.outer_after_body hb
  rw [ScopeStack.pop?_of_outer houter] at hpop
  obtain rfl : s.scopes = scopes := Option.some.inj hpop
  refine ⟨rfl, rfl, fun n u hn => ?_⟩
  have ht : t.Coherent := by
    have := hbody.coherent (s.deeper.coherent_entered params)
    rwa [show body.outcome (s.deeper.entered params) = (.ok pipelines, t) from hb] at this
  have hu := ht n u hn
  unfold ScopeStack.outerType? at hu
  rwa [houter] at hu

theorem closure {body : CompileM (List (ValuesOp F))} (o : Options) (pos : Pos)
    (params : List Name) (hbody : KeepsCoherent body) :
    KeepsCoherent (closureAround o pos params body) where
  coherent := by
    intro s hs
    have ht := hbody.coherent (s.deeper.coherent_entered params)
    rw [outcome_closureAround]
    split
    · exact hs
    · rcases hb : body.outcome (s.deeper.entered params) with ⟨e | pipelines, t⟩
      · -- the frame of the closure stays, with the captures of its code
        rw [hb] at ht
        exact ht.of_eq rfl rfl
      · have houter : t.scopes.outer = s.scopes.frames := hbody.outer_after_body hb
        simp only [ScopeStack.pop?_of_outer houter]
        exact hs.of_eq rfl rfl
  outer := by
    intro s c s' h
    rw [(hbody.state_after_closure h).1]

theorem forwarding {body : CompileM (List (ValuesOp F))} (o : Options) (pos : Pos)
    (params : List Name) (hbody : KeepsCoherent body) :
    KeepsCoherent (forwarding (closureAround o pos params body)) where
  coherent := by
    intro s hs
    have hclosure := (closure o pos params hbody).coherent hs
    rcases hc : (closureAround o pos params body).outcome s with ⟨e | c, t⟩
    · rw [ShellOps.forwarding, CompileM.outcome_bind]
      simpa [hc] using hclosure
    · obtain ⟨hscopes, hcaptures, hinner⟩ := hbody.state_after_closure hc
      have hout : (ShellOps.forwarding (closureAround o pos params body)).outcome s =
          (.ok c.op, { t with captures := (c.captures.forward t.scopes t.captures).1 }) :=
        gives_forwarding.2 ⟨c, t, hc, rfl, rfl⟩
      rw [hout]
      intro n u hn
      simp only [hscopes, hcaptures, CaptureSet.getElem?_forward] at hn ⊢
      rcases Option.or_eq_some_iff.1 hn with hold | ⟨-, hnew⟩
      · exact hs n u hold
      · -- the code around the closure does not bind the name, so its frame is passed over
        obtain ⟨hlocal, hcaptured⟩ : s.scopes.hasLocal n = false ∧ c.captures[n]? = some u := by
          simpa using hnew
        have htype := hinner n u hcaptured
        rw [ScopeStack.hasLocal_eq, Option.isSome_eq_false_iff, Option.isNone_iff_eq_none] at hlocal
        rwa [ScopeStack.type?_eq, hlocal, Option.none_or] at htype
  outer := by
    intro s op s' h
    obtain ⟨c, t, hc, -, rfl⟩ := gives_forwarding.1 h
    have houter := (closure o pos params hbody).outer hc
    exact houter

end KeepsCoherent

/-- Everything a compilation is made of keeps captures coherent. -/
theorem keepsCoherent (o : Options) :
    StepRelation .all o o fun x _ => KeepsCoherent x where
  pure a := ⟨fun h => h, fun h => by rw [(CompileM.gives_pure.1 h).2]⟩
  sequence := KeepsCoherent.sequence
  reject _ _ := ⟨fun h => h, fun h => absurd h CompileM.gives_throw⟩
  malformed _ := ⟨fun h => h, fun h => absurd h CompileM.gives_throw⟩
  count f _ := ⟨fun h => h.of_eq rfl rfl, fun h => by rw [CompileM.gives_count.1 h]⟩
  bindName n t := ⟨fun h => h.of_eq rfl rfl, fun h => by rw [CompileM.gives_bindName.1 h]; rfl⟩
  unbind n := ⟨fun h => h.of_eq rfl rfl, fun h => by rw [CompileM.gives_unbind.1 h]; rfl⟩
  hasLocal _ := ⟨fun h => h, fun h => by rw [(CompileM.gives_hasLocal.1 h).2]⟩
  resolve _ := KeepsCoherent.resolve _
  nested pos h := h.nested o pos
  closure pos params h := h.closure o pos params
  forwarding pos params h := h.forwarding o pos params

/-- The special forms that are registered keep captures coherent, and leave the frames around the
innermost one alone if they compile, as far as the steps that compile their arguments do. -/
def Env.Orderly (env : Env F) : Prop := SpecialsRelated .all (fun x _ => KeepsCoherent x) env env

theorem Registry.CoreOnly.orderly {env : Env F} (h : env.registry.CoreOnly) : env.Orderly :=
  h.specialsRelated (keepsCoherent env.options).toFormRelation

theorem Env.Orderly.keepsCoherent {env : Env F} (h : env.Orderly) (ps : List Pipeline) :
    KeepsCoherent (compilePipelines env ps) :=
  compilePipelines_respects ⟨ShellOps.keepsCoherent env.options, .refl env, h⟩ ps
    (Allowance.allows_all _ _)

theorem compilePipelines_keepsCoherent (env : Env F) (hcore : env.registry.CoreOnly)
    (ps : List Pipeline) : KeepsCoherent (compilePipelines env ps) := hcore.orderly.keepsCoherent ps

/-! ### Runs of a unit -/

theorem coherent_run {env : Env F} (hcore : env.registry.CoreOnly) :
    ∀ (steps : List UnitStep) {s : CompileState}, s.Coherent → (UnitStep.run env steps s).Coherent
  | [], _, h => h
  | u :: steps, s, h => by
    have hstep : KeepsCoherent (u.step env) :=
      UnitStep.step_related (keepsCoherent env.options) (.refl env) hcore u
    exact coherent_run hcore steps (hstep.coherent h)

/-- **Captures agree with the frames.** After any operations of a unit, failed ones included, the
nearest frame around the innermost one that binds a captured name gives it the kind it was captured
with; so there are no captures while there is only the root frame. -/
theorem captures_agree_with_frames (env : Env F) (hcore : env.registry.CoreOnly) (root : Frame)
    (steps : List UnitStep) :
    let s := UnitStep.run env steps (.ofRoot root)
    (∀ (n : Name) (t : Ty), s.captures[n]? = some t → ∃ nearer frame further,
      s.scopes.outer = nearer ++ frame :: further ∧ (∀ f ∈ nearer, f[n]? = none) ∧
        frame[n]? = some t) ∧
    (s.scopes.outer = [] → s.captures = ∅) := by
  intro s
  have hcoherent : s.Coherent := coherent_run hcore steps (CompileState.coherent_ofRoot root)
  refine ⟨fun n t hn => ?_, hcoherent.captures_eq_empty⟩
  obtain ⟨nearer, frame, further, hsplit, hframe, hnearer⟩ :=
    List.findSome?_eq_some_iff.1 (hcoherent n t hn)
  exact ⟨nearer, frame, further, hsplit, hnearer, hframe⟩

/-- A closure fails after it captured `x`, and its frame, which stays, binds `x` itself. -/
def failedClosure : List UnitStep :=
  [.compile (.closurePrimary (closureOf ["p"]
      [formOf "echo" [.variable 0 (utf8 "x"), .variable 0 (utf8 "y")]])),
    .bind (utf8 "x") .string]

theorem captures_agree_after_failed_closure :
    (UnitStep.run (coreEnv : Env Unit) failedClosure (.ofRoot {(utf8 "x", .list)})).captures[utf8 "x"]? =
      some .list ∧
    ∃ nearer frame further,
      (UnitStep.run (coreEnv : Env Unit) failedClosure (.ofRoot {(utf8 "x", .list)})).scopes.outer =
        nearer ++ frame :: further ∧
      (∀ f ∈ nearer, f[utf8 "x"]? = none) ∧ frame[utf8 "x"]? = some .list := by
  have hx : (UnitStep.run (coreEnv : Env Unit) failedClosure
      (.ofRoot {(utf8 "x", .list)})).captures[utf8 "x"]? = some .list := by decide +kernel
  have hagree := captures_agree_with_frames (coreEnv : Env Unit) coreOnly_coreEnv
    {(utf8 "x", .list)} failedClosure
  exact ⟨hx, hagree.1 _ _ hx⟩

end ShellOps
