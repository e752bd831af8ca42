/-
# Frames, captures and depth through a compilation

A step that succeeds leaves the frames around the innermost one, adds to the captures and is back at
its nesting depth. A step that fails is back at its depth too, but leaves the frames of closures that
were entered and not left on the stack: depth is counted back on every way out, frames are popped on
the good way only. Below those frames the stack is as it was.

Which closures were entered and left is logged along the run: a closure literal when its code begins
and when its code is done, and a step put together from others what they log, up to the first that
fails (`Logs`). The statistics count the closures that were left, and the height of the stack is
what is still open, so that a run settles both numbers.
-/
import ShellOps.Proofs.Coherence

namespace ShellOps

variable {α β F : Type} {s s' : CompileState}

/-! ### What is left of the stack -/

/-- In `s'` the depth is that of `s`, and the frames around the innermost one of `s` are still at the
bottom of the stack. -/
structure CompileState.Holds (s s' : CompileState) : Prop where
  depth : s'.depth = s.depth
  below : s.scopes.outer <:+ s'.scopes.outer

namespace CompileState.Holds

theorem refl (s : CompileState) : s.Holds s := ⟨rfl, List.suffix_refl _⟩

theorem trans {s t u : CompileState} (h : s.Holds t) (h' : t.Holds u) : s.Holds u :=
  ⟨h'.depth.trans h.depth, h.below.trans h'.below⟩

end CompileState.Holds

/-- However the step ends, the depth and the frames around the innermost one are there; if it
succeeds, what was captured is captured as before. -/
structure KeepsFrames (x : CompileM α) : Prop extends KeepsCoherent x where
  holds : ∀ s : CompileState, s.Holds (x.outcome s).2
  captured : ∀ {s : CompileState} {a : α} {s' : CompileState} {n : Name} {t : Ty},
    x.Gives s a s' → s.captures[n]? = some t → s'.captures[n]? = some t

namespace KeepsFrames

theorem sequence {x : CompileM α} {f : α → CompileM β} (hx : KeepsFrames x)
    (hf : ∀ a, x.CanGive a → KeepsFrames (f a)) : KeepsFrames (x >>= f) where
  toKeepsCoherent := hx.toKeepsCoherent.sequence fun a ha => (hf a ha).toKeepsCoherent
  holds := by
    intro s
    have ht := hx.holds s
    rw [CompileM.outcome_bind]
    rcases hxs : x.outcome s with ⟨e | a, t⟩
    · rw [hxs] at ht
      exact ht
    · rw [hxs] at ht
      exact ht.trans ((hf a ⟨s, t, hxs⟩).holds t)
  captured := by
    intro s b s' n ty h hn
    obtain ⟨a, t, ha, hb⟩ := CompileM.gives_bind.1 h
    exact (hf a ⟨s, t, ha⟩).captured hb (hx.captured ha hn)

theorem resolve (n : Name) : KeepsFrames (CompileM.resolve n) where
  toKeepsCoherent := .resolve n
  holds s := ⟨rfl, List.suffix_refl _⟩
  captured := by
    intro s a s' m t h hm
    rw [(CompileM.gives_resolve.1 h).2]
    simp only [ScopeStack.getElem?_resolve, hm, Option.some_or]

theorem nested {x : CompileM α} (o : Options) (pos : Pos) (hx : KeepsFrames x) :
    KeepsFrames (CompileM.nested o pos x) where
  toKeepsCoherent := hx.toKeepsCoherent.nested o pos
  holds := by
    intro s
    rw [CompileM.outcome_nested]
    split
    · exact .refl s
    · have h := hx.holds s.deeper
      refine ⟨?_, h.below⟩
      show (x.outcome s.deeper).2.depth - 1 = s.depth
      rw [h.depth]
      rfl
  captured := by
    intro s a s' n t h hn
    obtain ⟨-, u, hu, rfl⟩ := CompileM.gives_nested.1 h
    have hcaptured := hx.captured hu hn
    exact hcaptured

theorem closure {body : CompileM (List (ValuesOp F))} (o : Options) (pos : Pos)
    (params : List Name) (hbody : KeepsFrames body) :
    KeepsFrames (closureAround o pos params body) where
  toKeepsCoherent := hbody.toKeepsCoherent.closure o pos params
  holds := by
    intro s
    have hb := hbody.holds (s.deeper.entered params)
    have hdepth : (body.outcome (s.deeper.entered params)).2.depth - 1 = s.depth := by
      rw [hb.depth]
      rfl
    rw [outcome_closureAround]
    split
    · exact .refl s
    · rcases hbo : body.outcome (s.deeper.entered params) with ⟨e | pipelines, t⟩
      · -- the frame of the closure stays, on top of those that were there
        rw [hbo] at hb hdepth
        have hbelow := hb.below
        rw [CompileState.outer_entered] at hbelow
        exact ⟨hdepth, (List.suffix_cons s.scopes.innermost s.scopes.outer).trans hbelow⟩
      · have houter : t.scopes.outer = s.scopes.frames := hbody.outer_after_body hbo
        rw [hbo] at hdepth
        simp only [ScopeStack.pop?_of_outer houter]
        exact ⟨hdepth, List.suffix_refl _⟩
  captured := by
    intro s c s' n t h hn
    rw [(hbody.state_after_closure h).2.1]
    exact hn

theorem forwarding {body : CompileM (List (ValuesOp F))} (o : Options) (pos : Pos)
    (params : List Name) (hbody : KeepsFrames body) :
    KeepsFrames (forwarding (closureAround o pos params body)) where
  toKeepsCoherent := hbody.toKeepsCoherent.forwarding o pos params
  holds := by
    intro s
    have hclosure := (closure o pos params hbody).holds s
    rw [ShellOps.forwarding, CompileM.outcome_bind]
    rcases hc : (closureAround o pos params body).outcome s with ⟨e | c, t⟩
    · rw [hc] at hclosure
      exact hclosure
    · rw [hc] at hclosure
      exact ⟨hclosure.depth, hclosure.below⟩
  captured := by
    intro s op s' n t h hn
    obtain ⟨c, u, hc, -, rfl⟩ := gives_forwarding.1 h
    have hu := (closure o pos params hbody).captured hc hn
    simp only [CaptureSet.getElem?_forward, hu, Option.some_or]

end KeepsFrames

/-- Everything a compilation is made of keeps frames, captures and depth. -/
theorem keepsFrames (o : Options) : StepRelation .all o o fun x _ => KeepsFrames x where
  pure a := ⟨(keepsCoherent o).pure a, .refl, fun h hn => by rw [(CompileM.gives_pure.1 h).2]; exact hn⟩
  sequence := KeepsFrames.sequence
  reject pos cause :=
    ⟨(keepsCoherent o).reject pos cause, .refl, fun h => absurd h CompileM.gives_reject⟩
  malformed h :=
    ⟨(keepsCoherent o).malformed h, .refl, fun h => absurd h CompileM.gives_malformed⟩
  count f hf := ⟨(keepsCoherent o).count f hf, fun _ => ⟨rfl, List.suffix_refl _⟩, fun h hn => by
    rw [CompileM.gives_count.1 h]; exact hn⟩
  bindName n t := ⟨(keepsCoherent o).bindName n t, fun _ => ⟨rfl, List.suffix_refl _⟩, fun h hn => by
    rw [CompileM.gives_bindName.1 h]; exact hn⟩
  unbind n := ⟨(keepsCoherent o).unbind n, fun _ => ⟨rfl, List.suffix_refl _⟩, fun h hn => by
    rw [CompileM.gives_unbind.1 h]; exact hn⟩
  hasLocal _ := ⟨(keepsCoherent o).hasLocal trivial, .refl, fun h hn => by
    rw [(CompileM.gives_hasLocal.1 h).2]; exact hn⟩
  resolve _ := KeepsFrames.resolve _
  nested pos h := h.nested o pos
  closure pos params h := h.closure o pos params
  forwarding pos params h := h.forwarding o pos params

/-! ### The closures that a run enters and leaves -/

/-- A frame is pushed for a closure, or popped at its end. -/
inductive ClosureEvent
  | entered
  | left
deriving DecidableEq

/-- The closures that a run of the step from a state enters and leaves, in order, until it ends or
fails. A closure literal is entered once, before its code, and left once, after its code, if that
compiles; nothing else is logged. -/
inductive Logs : {α : Type} → CompileM α → CompileState → List ClosureEvent → Prop
  | pure {α : Type} (a : α) (s : CompileState) : Logs (pure a) s []
  | fail {α : Type} (e : Failure) (s : CompileState) : Logs (throw e : CompileM α) s []
  | count {f : Stats → Stats} (s : CompileState) (hf : ∀ c, (f c).closures = c.closures) :
      Logs (CompileM.count f) s []
  | bindName (n : Name) (t : Ty) (s : CompileState) : Logs (CompileM.bind n t) s []
  | unbind (n : Name) (s : CompileState) : Logs (CompileM.unbind n) s []
  | hasLocal (n : Name) (s : CompileState) : Logs (CompileM.hasLocal n) s []
  | resolve (n : Name) (s : CompileState) : Logs (CompileM.resolve n) s []
  | forward (inner : CaptureSet) (s : CompileState) : Logs (CompileM.forwardCaptures inner) s []
  | sequence {α β : Type} {x : CompileM α} {f : α → CompileM β} {s t : CompileState} {a : α}
      {log log' : List ClosureEvent} (hx : Logs x s log) (ha : x.outcome s = (.ok a, t))
      (hf : Logs (f a) t log') : Logs (x >>= f) s (log ++ log')
  | failed {α β : Type} {x : CompileM α} {f : α → CompileM β} {s t : CompileState} {e : Failure}
      {log : List ClosureEvent} (hx : Logs x s log) (he : x.outcome s = (.error e, t)) :
      Logs (x >>= f) s log
  | nested {α : Type} {x : CompileM α} {o : Options} {pos : Pos} {s : CompileState}
      {log : List ClosureEvent} (h : o.exceeds (s.depth + 1) = false) (hx : Logs x s.deeper log) :
      Logs (CompileM.nested o pos x) s log
  | tooDeep {α : Type} {x : CompileM α} {o : Options} {pos : Pos} {s : CompileState}
      (h : o.exceeds (s.depth + 1) = true) : Logs (CompileM.nested o pos x) s []
  | closure {G : Type} {body : CompileM (List (ValuesOp G))} {o : Options} {pos : Pos}
      {params : List Name} {s t : CompileState} {pipelines : List (ValuesOp G)} {scopes : ScopeStack}
      {log : List ClosureEvent} (h : o.exceeds (s.depth + 1) = false)
      (hlog : Logs body (s.deeper.entered params) log)
      (hbody : body.outcome (s.deeper.entered params) = (.ok pipelines, t))
      (hpop : t.scopes.pop? = some scopes) :
      Logs (closureAround o pos params body) s (.entered :: (log ++ [.left]))
  | unfinished {G : Type} {body : CompileM (List (ValuesOp G))} {o : Options} {pos : Pos}
      {params : List Name} {s t : CompileState} {e : Failure} {log : List ClosureEvent}
      (h : o.exceeds (s.depth + 1) = false) (hlog : Logs body (s.deeper.entered params) log)
      (hbody : body.outcome (s.deeper.entered params) = (.error e, t)) :
      Logs (closureAround o pos params body) s (.entered :: log)

/-- What the states before and after some events tell of them: how many closures were left is counted,
and the stack is as much higher as more closures were entered. -/
structure Explains (log : List ClosureEvent) (s s' : CompileState) : Prop where
  closures : s'.stats.closures = s.stats.closures + log.count .left
  height : s'.scopes.depth + log.count .left = s.scopes.depth + log.count .entered

theorem Explains.append {log log' : List ClosureEvent} {s t u : CompileState} (h : Explains log s t)
    (h' : Explains log' t u) : Explains (log ++ log') s u := by
  have hclosures := h.closures
  have hheight := h.height
  have hclosures' := h'.closures
  have hheight' := h'.height
  constructor
  · rw [List.count_append]
    omega
  · rw [List.count_append, List.count_append]
    omega

theorem Explains.entered (s : CompileState) (params : List Name) :
    Explains [.entered] s (s.deeper.entered params) := by
  refine ⟨rfl, ?_⟩
  unfold ScopeStack.depth
  rw [CompileState.outer_entered]
  rfl

/-- **The run determines how many closures are entered and left**, whichever way it is logged. -/
theorem Logs.explains {x : CompileM α} {log : List ClosureEvent} (h : Logs x s log) :
    Explains log s (x.outcome s).2 := by
  induction h with
  | pure | fail | bindName | unbind | hasLocal | resolve | forward => exact ⟨rfl, rfl⟩
  | count s hf => exact ⟨hf s.stats, rfl⟩
  | sequence _ ha _ ihx ihf =>
    rw [CompileM.outcome_bind, ha]
    rw [ha] at ihx
    exact ihx.append ihf
  | failed _ he ih =>
    rw [CompileM.outcome_bind, he]
    rw [he] at ih
    exact ih
  | nested hdepth _ ih =>
    rw [CompileM.outcome_nested, hdepth]
    exact ⟨ih.closures, ih.height⟩
  | tooDeep hdepth =>
    rw [CompileM.outcome_nested, hdepth]
    exact ⟨rfl, rfl⟩
  | @closure _ body o pos params s t pipelines scopes log hdepth _ hbody hpop ih =>
    have hleft : Explains [.left] t { t.left scopes s.captures with depth := t.depth - 1 } :=
      ⟨rfl, (ScopeStack.depth_of_pop? hpop).symm⟩
    rw [hbody] at ih
    rw [outcome_closureAround, hdepth, hbody]
    simp only [hpop]
    exact (Explains.entered s params).append (ih.append hleft)
  | @unfinished _ body o pos params s t e log hdepth _ hbody ih =>
    rw [hbody] at ih
    have hall := (Explains.entered s params).append ih
    rw [outcome_closureAround, hdepth, hbody]
    exact ⟨hall.closures, hall.height⟩

/-- The step keeps frames, captures and depth, and every run of it has a log. -/
structure Logged (x : CompileM α) : Prop extends KeepsFrames x where
  logs : ∀ s, ∃ log, Logs x s log

namespace Logged

theorem sequence {x : CompileM α} {f : α → CompileM β} (hx : Logged x)
    (hf : ∀ a, x.CanGive a → Logged (f a)) : Logged (x >>= f) where
  toKeepsFrames := hx.toKeepsFrames.sequence fun a ha => (hf a ha).toKeepsFrames
  logs := by
    intro s
    obtain ⟨log, hlog⟩ := hx.logs s
    rcases hxs : x.outcome s with ⟨e | a, t⟩
    · exact ⟨log, .failed hlog hxs⟩
    · obtain ⟨log', hlog'⟩ := (hf a ⟨s, t, hxs⟩).logs t
      exact ⟨log ++ log', .sequence hlog hxs hlog'⟩

theorem nested {x : CompileM α} (o : Options) (pos : Pos) (hx : Logged x) :
    Logged (CompileM.nested o pos x) where
  toKeepsFrames := hx.toKeepsFrames.nested o pos
  logs := by
    intro s
    cases h : o.exceeds (s.depth + 1) with
    | true => exact ⟨[], .tooDeep h⟩
    | false =>
      obtain ⟨log, hlog⟩ := hx.logs s.deeper
      exact ⟨log, .nested h hlog⟩

theorem closure {body : CompileM (List (ValuesOp F))} (o : Options) (pos : Pos)
    (params : List Name) (hbody : Logged body) : Logged (closureAround o pos params body) where
  toKeepsFrames := hbody.toKeepsFrames.closure o pos params
  logs := by
    intro s
    cases h : o.exceeds (s.depth + 1) with
    | true => exact ⟨[], .tooDeep h⟩
    | false =>
      obtain ⟨log, hlog⟩ := hbody.logs (s.deeper.entered params)
      rcases hout : body.outcome (s.deeper.entered params) with ⟨e | pipelines, t⟩
      · exact ⟨_, .unfinished h hlog hout⟩
      · have houter : t.scopes.outer = s.scopes.frames := hbody.outer_after_body hout
        exact ⟨_, .closure h hlog hout (ScopeStack.pop?_of_outer houter)⟩

theorem forwarding {body : CompileM (List (ValuesOp F))} (o : Options) (pos : Pos)
    (params : List Name) (hbody : Logged body) :
    Logged (forwarding (closureAround o pos params body)) where
  toKeepsFrames := hbody.toKeepsFrames.forwarding o pos params
  logs := by
    intro s
    obtain ⟨log, hlog⟩ := (closure o pos params hbody).logs s
    rcases hout : (closureAround o pos params body).outcome s with ⟨e | c, t⟩
    · exact ⟨log, .failed hlog hout⟩
    · exact ⟨_, .sequence hlog hout (.sequence (.forward c.captures t) rfl (.pure c.op _))⟩

end Logged

/-- Everything a compilation is made of keeps frames, captures and depth, and logs the closures it enters
and leaves. -/
theorem logged (o : Options) : StepRelation .all o o fun x _ => Logged x where
  pure a := ⟨(keepsFrames o).pure a, fun s => ⟨[], .pure a s⟩⟩
  sequence := Logged.sequence
  reject pos cause := ⟨(keepsFrames o).reject pos cause, fun s => ⟨[], .fail _ s⟩⟩
  malformed h := ⟨(keepsFrames o).malformed h, fun s => ⟨[], .fail _ s⟩⟩
  count f hf := ⟨(keepsFrames o).count f hf, fun s => ⟨[], .count s fun c => (hf c).2⟩⟩
  bindName n t := ⟨(keepsFrames o).bindName n t, fun s => ⟨[], .bindName n t s⟩⟩
  unbind n := ⟨(keepsFrames o).unbind n, fun s => ⟨[], .unbind n s⟩⟩
  hasLocal h := ⟨(keepsFrames o).hasLocal h, fun s => ⟨[], .hasLocal _ s⟩⟩
  resolve h := ⟨(keepsFrames o).resolve h, fun s => ⟨[], .resolve _ s⟩⟩
  nested pos h := h.nested o pos
  closure pos params h := h.closure o pos params
  forwarding pos params h := h.forwarding o pos params

/-! ### Runs that fail inside a closure -/

/-- A form with a primary as its command. -/
def calling (head : Primary) : Form := ⟨0, some (wordOf head), 0, [], []⟩

/-- The step fails, and its run has this log. -/
def FailsAfter (x : CompileM α) (s : CompileState) (log : List ClosureEvent) : Prop :=
  Logs x s log ∧ ∃ e t, x.outcome s = (.error e, t)

namespace FailsAfter

variable {env : Env F} {log log' : List ClosureEvent}

theorem reject (pos : Pos) (cause : Rejection) (s : CompileState) :
    FailsAfter (CompileM.reject pos cause : CompileM α) s [] :=
  ⟨.fail _ s, _, s, rfl⟩

theorem first {x : CompileM α} {f : α → CompileM β} (h : FailsAfter x s log) :
    FailsAfter (x >>= f) s log := by
  obtain ⟨hlog, e, t, he⟩ := h
  exact ⟨.failed hlog he, e, t, by rw [CompileM.outcome_bind, he]⟩

theorem second {x : CompileM α} {f : α → CompileM β} {a : α} (hx : Logs x s log)
    (ha : x.outcome s = (.ok a, s')) (h : FailsAfter (f a) s' log') :
    FailsAfter (x >>= f) s (log ++ log') := by
  obtain ⟨hlog, e, t, he⟩ := h
  exact ⟨.sequence hx ha hlog, e, t, by rw [CompileM.outcome_bind, ha]; exact he⟩

theorem nested {x : CompileM α} {o : Options} {pos : Pos} (hdepth : o.exceeds (s.depth + 1) = false)
    (h : FailsAfter x s.deeper log) : FailsAfter (CompileM.nested o pos x) s log := by
  obtain ⟨hlog, e, t, he⟩ := h
  exact ⟨.nested hdepth hlog, e, _, by rw [CompileM.outcome_nested, hdepth, he]; rfl⟩

theorem closure {body : CompileM (List (ValuesOp F))} {o : Options} {pos : Pos} {params : List Name}
    (hdepth : o.exceeds (s.depth + 1) = false) (h : FailsAfter body (s.deeper.entered params) log) :
    FailsAfter (closureAround o pos params body) s (.entered :: log) := by
  obtain ⟨hlog, e, t, he⟩ := h
  exact ⟨.unfinished hdepth hlog he, e, _, by rw [outcome_closureAround, hdepth, he]; rfl⟩

/-- A closure literal that calls one command fails, once entered, as the command word does. -/
theorem compileClosure {params : List String} {head : Primary}
    (hdepth : ∀ d ≤ s.depth + 3, env.options.exceeds d = false)
    (h : ∀ t : CompileState, t.depth = s.depth + 3 →
      FailsAfter (compileCommand env (some (wordOf head))) t log) :
    FailsAfter (compileClosure env (closureOf params [calling head])) s (.entered :: log) := by
  refine .closure (hdepth _ (by omega)) ?_
  have hform : FailsAfter (compileForm env (calling head)) (s.deeper.entered (params.map utf8)).deeper
      log := by
    have hcount (t : CompileState) :
        Logs (CompileM.count fun c => { c with forms := c.forms + 1 }) t [] := .count t fun _ => rfl
    rw [calling, compileForm]
    exact .nested (hdepth (s.depth + 3) (Nat.le_refl _)) (.second (hcount _) rfl (.first (h _ rfl)))
  have hpipeline : FailsAfter (compilePipeline env ⟨0, [calling head]⟩)
      (s.deeper.entered (params.map utf8)) log :=
    .nested (hdepth (s.depth + 2) (by omega)) (.first (.first hform))
  exact .first hpipeline

/-- So does a command word that is a closure literal. -/
theorem closureCommand {c : Closure} (hdepth : env.options.exceeds (s.depth + 1) = false)
    (h : FailsAfter (ShellOps.compileClosure env c) s.deeper log) :
    FailsAfter (compileCommand env (some (wordOf (.closure 0 (some c))))) s log :=
  have hprimary : FailsAfter (compilePrimary env (.closure 0 (some c))) s log :=
    .nested hdepth (.first h)
  .first hprimary

end FailsAfter

/-! ### Every operation -/

theorem compileNode_logged (env : Env F) (hcore : env.registry.CoreOnly) (node : Node) :
    Logged (compileNode env node) :=
  compileNode_related (logged env.options) (.refl env) hcore node (Allowance.allows_all _ _)

/-- A closure literal that compiles leaves frames and captures as they were. -/
theorem scopes_of_compileClosure (env : Env F) (hcore : env.registry.CoreOnly) {c : Closure}
    {compiled : CompiledClosure F} (h : (compileClosure env c).Gives s compiled s') :
    s'.scopes = s.scopes ∧ s'.captures = s.captures := by
  obtain ⟨pos, params, ⟨_, pipelines⟩⟩ := c
  have hbody := compilePipelines_keepsCoherent env hcore pipelines
  obtain ⟨hscopes, hcaptures, -⟩ := hbody.state_after_closure h
  exact ⟨hscopes, hcaptures⟩

/-- **Frame discipline.** An operation that succeeds leaves the height of the stack, the frames below
the innermost one and the depth as they were and only adds to the captures; compiling a closure also
leaves the innermost frame and, as long as its captures are not passed on, the captures. An operation
that fails leaves the depth and the frames below the innermost one, and the stack is higher by the
closures that it entered and did not leave; those that it left are counted. -/
theorem compile_frame_discipline (env : Env F) (hcore : env.registry.CoreOnly) (node : Node)
    (s s' : CompileState) :
    (∀ op, (compileNode env node).outcome s = (.ok op, s') →
      s'.scopes.depth = s.scopes.depth ∧ s'.scopes.outer = s.scopes.outer ∧
      (∀ (n : Name) (t : Ty), s.captures[n]? = some t → s'.captures[n]? = some t) ∧
      s'.depth = s.depth ∧
      (∀ c, node = .closure c → s'.scopes = s.scopes ∧ s'.captures = s.captures) ∧
      (∀ c, node = .closurePrimary c → s'.scopes = s.scopes)) ∧
    (∀ e, (compileNode env node).outcome s = (.error e, s') →
      s'.depth = s.depth ∧ s.scopes.outer <:+ s'.scopes.outer ∧
      (∃ log, Logs (compileNode env node) s log) ∧
      ∀ log, Logs (compileNode env node) s log →
        log.count .left ≤ log.count .entered ∧
        s'.stats.closures = s.stats.closures + log.count .left ∧
        s'.scopes.depth = s.scopes.depth + (log.count .entered - log.count .left)) := by
  have hkeeps := compileNode_logged env hcore node
  have hholds := hkeeps.holds s
  refine ⟨fun op hout => ?_, fun e hout => ?_⟩
  · rw [hout] at hholds
    have houter : s'.scopes.outer = s.scopes.outer := hkeeps.outer hout
    refine ⟨?_, houter, fun n t hn => hkeeps.captured hout hn, hholds.depth, ?_, ?_⟩
    · unfold ScopeStack.depth
      rw [houter]
    · rintro c rfl
      obtain ⟨compiled, t, hc, hpure⟩ := CompileM.gives_bind.1 hout
      obtain ⟨-, rfl⟩ := CompileM.gives_pure.1 hpure
      exact scopes_of_compileClosure env hcore hc
    · rintro c rfl
      obtain ⟨op', t, hforward, hpure⟩ := CompileM.gives_bind.1 hout
      obtain ⟨-, rfl⟩ := CompileM.gives_pure.1 hpure
      obtain ⟨compiled, u, hc, -, rfl⟩ := gives_forwarding.1 hforward
      exact (scopes_of_compileClosure env hcore hc).1
  · rw [hout] at hholds
    refine ⟨hholds.depth, hholds.below, hkeeps.logs s, fun log hlog => ?_⟩
    have hexplains := hlog.explains
    rw [hout] at hexplains
    have hheight : s'.scopes.depth + log.count .left = s.scopes.depth + log.count .entered :=
      hexplains.height
    have hlength : s.scopes.outer.length ≤ s'.scopes.outer.length := hholds.below.length_le
    unfold ScopeStack.depth at hheight ⊢
    exact ⟨by omega, hexplains.closures, by omega⟩

/-- A closure whose code calls a closure whose code calls a variable, which no command may be. -/
def unfinishedClosure : Closure :=
  closureOf ["p"] [calling (.closure 0 (some (closureOf ["q"] [calling (.variable 0 (utf8 "p"))])))]

/-- Both closures are entered and neither is left, so their frames stay on the stack. -/
theorem unfinished_closures_stay :
    Logs (compileNode (coreEnv : Env Unit) (.closurePrimary unfinishedClosure)) (.ofRoot ∅)
      [.entered, .entered] ∧
    ∃ e s, (compileNode (coreEnv : Env Unit) (.closurePrimary unfinishedClosure)).outcome (.ofRoot ∅) =
        (.error e, s) ∧ s.scopes.depth = 3 ∧ s.stats.closures = 0 ∧ s.depth = 0 := by
  have hdepth : ∀ d ≤ 7, (coreEnv : Env Unit).options.exceeds d = false := by decide
  have hinner : ∀ t : CompileState, t.depth = 3 → FailsAfter (compileCommand (coreEnv : Env Unit)
      (some (wordOf (.closure 0 (some (closureOf ["q"] [calling (.variable 0 (utf8 "p"))])))))) t
      [.entered] := by
    intro t ht
    have hfour : t.deeper.depth = 4 := congrArg Nat.succ ht
    refine .closureCommand (hdepth _ (by omega)) (.compileClosure ?_ fun u hu => ?_)
    · exact fun d hd => hdepth d (by omega)
    · exact .reject 0 .badCommand u
  have houter : FailsAfter (compileClosure (coreEnv : Env Unit) unfinishedClosure) (.ofRoot ∅)
      [.entered, .entered] :=
    .compileClosure (fun d hd => hdepth d (Nat.le_trans hd (by decide))) hinner
  obtain ⟨hlog, e, s, he⟩ : FailsAfter (compileNode (coreEnv : Env Unit)
      (.closurePrimary unfinishedClosure)) (.ofRoot ∅) [.entered, .entered] := .first (.first houter)
  obtain ⟨hdepth, -, -, hlogs⟩ := (compile_frame_discipline (coreEnv : Env Unit) coreOnly_coreEnv
    (.closurePrimary unfinishedClosure) (.ofRoot ∅) s).2 e he
  obtain ⟨-, hclosures, hheight⟩ := hlogs _ hlog
  exact ⟨hlog, e, s, he, hheight, hclosures, hdepth⟩

end ShellOps
