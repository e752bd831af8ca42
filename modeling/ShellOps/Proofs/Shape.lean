/-
# Only broken trees are malformed

When compiling stops because the tree is malformed, what it reports is a flaw of the tree
(`flaw_of_malformed`). So a well-shaped script always gets an answer: an op, or a diagnostic for its
author. Of the flaws that no tree has, two cannot arise because of how compiling is put together: a
table literal gives as many keys as values, and each special form gives an op. That the root frame is
never popped is a fact about runs: code that compiles leaves the frames around it, so the frame
popped at the end of a closure is the one that was pushed for it.
-/
import ShellOps.Proofs.Coherence

namespace ShellOps

variable {α β F : Type}

/-- The step calls the tree malformed in an allowed way only. -/
structure Blames (allowed : Malformed → Prop) (x : CompileM α) : Prop extends KeepsCoherent x where
  allowed : ∀ {s : CompileState} {m : Malformed} {s' : CompileState},
    x.outcome s = (.error (.malformed m), s') → allowed m

namespace Blames

variable {allowed : Malformed → Prop}

theorem sequence {x : CompileM α} {f : α → CompileM β} (hx : Blames allowed x)
    (hf : ∀ a, x.CanGive a → Blames allowed (f a)) : Blames allowed (x >>= f) where
  toKeepsCoherent := hx.toKeepsCoherent.sequence fun a ha => (hf a ha).toKeepsCoherent
  allowed := by
    intro s m s' h
    rw [CompileM.outcome_bind] at h
    rcases hxs : x.outcome s with ⟨e | a, t⟩
    · rw [hxs] at h
      obtain ⟨he, rfl⟩ := Prod.mk.inj h
      obtain rfl := Except.error.inj he
      exact hx.allowed hxs
    · rw [hxs] at h
      exact (hf a ⟨s, t, hxs⟩).allowed h

theorem nested {x : CompileM α} (o : Options) (pos : Pos) (hx : Blames allowed x) :
    Blames allowed (CompileM.nested o pos x) where
  toKeepsCoherent := hx.toKeepsCoherent.nested o pos
  allowed := by
    intro s m s' h
    rw [CompileM.outcome_nested] at h
    split at h
    · cases h
    · exact hx.allowed (Prod.ext (Prod.mk.inj h).1 rfl)

/-- The frame that is popped after the code of a closure is its own. -/
theorem closure {body : CompileM (List (ValuesOp F))} (o : Options) (pos : Pos)
    (params : List Name) (hbody : Blames allowed body) :
    Blames allowed (closureAround o pos params body) where
  toKeepsCoherent := hbody.toKeepsCoherent.closure o pos params
  allowed := by
    intro s m s' h
    rw [outcome_closureAround] at h
    split at h
    · cases h
    · rcases hb : body.outcome (s.deeper.entered params) with ⟨e | pipelines, t⟩
      · rw [hb] at h
        obtain ⟨he, -⟩ := Prod.mk.inj h
        obtain rfl := Except.error.inj he
        exact hbody.allowed hb
      · have houter : t.scopes.outer = s.scopes.frames := hbody.outer_after_body hb
        rw [hb] at h
        simp only [ScopeStack.pop?_of_outer houter] at h
        cases h

theorem forwarding {body : CompileM (List (ValuesOp F))} (o : Options) (pos : Pos)
    (params : List Name) (hbody : Blames allowed body) :
    Blames allowed (forwarding (closureAround o pos params body)) where
  toKeepsCoherent := hbody.toKeepsCoherent.forwarding o pos params
  allowed := by
    intro s m s' h
    rw [ShellOps.forwarding, CompileM.outcome_bind] at h
    rcases hc : (closureAround o pos params body).outcome s with ⟨e | c, t⟩
    · rw [hc] at h
      obtain ⟨he, -⟩ := Prod.mk.inj h
      obtain rfl := Except.error.inj he
      exact (closure o pos params hbody).allowed hc
    · rw [hc] at h
      cases h

end Blames

/-- Everything a compilation is made of blames the tree for an allowed flaw only. -/
theorem blames (allowed : Malformed → Prop) (o : Options) :
    StepRelation ⟨allowed, fun _ => True⟩ o o fun x _ => Blames allowed x where
  pure a := ⟨(keepsCoherent o).pure a, fun h => by cases h⟩
  sequence := Blames.sequence
  reject pos cause := ⟨(keepsCoherent o).reject pos cause, fun h => by cases h⟩
  malformed hcause := by
    refine ⟨(keepsCoherent o).malformed trivial, fun h => ?_⟩
    cases h
    exact hcause
  count f hf := ⟨(keepsCoherent o).count f hf, fun h => by cases h⟩
  bindName n t := ⟨(keepsCoherent o).bindName n t, fun h => by cases h⟩
  unbind n := ⟨(keepsCoherent o).unbind n, fun h => by cases h⟩
  hasLocal _ := ⟨(keepsCoherent o).hasLocal trivial, fun h => by cases h⟩
  resolve _ := ⟨(keepsCoherent o).resolve trivial, fun h => by cases h⟩
  nested pos h := h.nested o pos
  closure pos params h := h.closure o pos params
  forwarding pos params h := h.forwarding o pos params

/-- **A malformed tree has the flaw it is called malformed for.** -/
theorem flaw_of_malformed {env : Env F} (hcore : env.registry.CoreOnly) (ps : List Pipeline)
    {s s' : CompileState} {m : Malformed}
    (h : (compilePipelines env ps).outcome s = (.error (.malformed m), s')) :
    m ∈ (surveyPipelines ps).flaws := by
  have hblames : Blames (· ∈ (surveyPipelines ps).flaws) (compilePipelines env ps) :=
    compilePipelines_related (blames _ env.options) (.refl env) hcore ps
      ⟨fun _ hm => hm, fun _ _ => trivial⟩
  exact hblames.allowed h

/-- **A well-shaped script is answered.** With no special form but the four that bind names, whatever
the root frame and the options: the script compiles to an op of its pipelines, or its author gets a
diagnostic; it is never called malformed. -/
theorem wellShaped_answered (c : Compiler F) (hcore : c.registry.CoreOnly) (source : Source)
    (chunk : Chunk) (hshape : chunk.WellShaped) (root : Frame) :
    ∃ r, c.compile source chunk root = .ok r ∧
      ((∃ ops, r.outcome = .ok (.chunk ops chunk.pos)) ∨
        ∃ pos cause, r.outcome = .error (Rejection.diagnose cause source pos)) := by
  rw [compile_eq]
  rcases hout : (compilePipelines ⟨c.registry, c.options, source⟩ chunk.pipelines).outcome (.ofRoot root)
    with ⟨(⟨pos, cause⟩ | m) | ops, s⟩
  · exact ⟨_, rfl, .inr ⟨pos, cause, rfl⟩⟩
  · have hm : m ∈ (surveyPipelines chunk.pipelines).flaws :=
      flaw_of_malformed hcore chunk.pipelines hout
    rw [show (surveyPipelines chunk.pipelines).flaws = [] from hshape] at hm
    cases hm
  · exact ⟨_, rfl, .inl ⟨ops, rfl⟩⟩

/-- `fn f {|p| put [&$p=(put $y)]}`: well shaped, with a function, a table and a capture, and a
variable that nothing binds. -/
def strayReference : Chunk :=
  codeOf [formOf "fn" [.string 0 (utf8 "f"), .closure 0 (some (closureOf ["p"]
    [formOf "put" [.table 0 [] [⟨some (wordOf (.variable 0 (utf8 "p"))),
      some (wordOf (.chanCapture 0 (some ⟨0, [formOf "put" [.variable 0 (utf8 "y")]]⟩)))⟩]]]))]]

theorem strayReference_answered :
    strayReference.WellShaped ∧
    ∃ r, (⟨(coreEnv : Env Unit).registry, {}⟩ : Compiler Unit).compile ⟨[], []⟩ strayReference ∅ = .ok r ∧
      ((∃ ops, r.outcome = .ok (.chunk ops 0)) ∨
        ∃ pos cause, r.outcome = .error (Rejection.diagnose cause ⟨[], []⟩ pos)) := by
  have hshape : strayReference.WellShaped := by decide +kernel
  exact ⟨hshape, wellShaped_answered ⟨_, _⟩ coreOnly_coreEnv ⟨[], []⟩ strayReference hshape ∅⟩

end ShellOps
