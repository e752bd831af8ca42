/-
# Runs in lockstep

How deep a node is nested decides one thing only: whether it is too deep. Two runs of a step from states
that differ in depth and counts go on side by side, with the same results, until the deeper one is
stopped by the limit (`Lockstep`). What the two states have in common besides is a relation of their
views, which are the names in scope and the captures.

A special form is a step that the registry brings in. A unit has an interface for them, and a form that
keeps to it (`Env.ByInterface`) does not look at depths and counts (`Env.DepthBlind`) and leaves the frames
around it alone (`Env.Orderly`). The forms that bind names and the stock forms do so (`Registry.Known`).
-/
import ShellOps.Proofs.Coherence
import ShellOps.Special.Stock

namespace ShellOps

variable {α β F : Type}

/-- The names in scope and the captures. -/
abbrev View := ScopeStack × CaptureSet

def CompileState.view (s : CompileState) : View := (s.scopes, s.captures)

/-- How two runs from the depths `d₁` and `d₂` end together: the second is too deep, both fail alike, or
both give the same, back at the depths they started from and with views that are related. -/
inductive Together (I : View → View → Prop) (d₁ d₂ : Nat) :
    Except Failure α × CompileState → Except Failure α × CompileState → Prop
  | tooDeep (o : Except Failure α × CompileState) (pos : Pos) (t : CompileState) :
    Together I d₁ d₂ o (.error (.rejected pos .tooDeep), t)
  | fails (e : Failure) (t₁ t₂ : CompileState) : Together I d₁ d₂ (.error e, t₁) (.error e, t₂)
  | gives (a : α) {t₁ t₂ : CompileState} : I t₁.view t₂.view → t₁.depth = d₁ → t₂.depth = d₂ →
    Together I d₁ d₂ (.ok a, t₁) (.ok a, t₂)

/-- From states with related views, of which the second may be deeper, two steps end together. -/
def Lockstep (I : View → View → Prop) (x y : CompileM α) : Prop :=
  ∀ s₁ s₂ : CompileState, I s₁.view s₂.view → s₁.depth ≤ s₂.depth →
    Together I s₁.depth s₂.depth (x.outcome s₁) (y.outcome s₂)

/-- What comes after two steps that end together need be compared only where both give the same. -/
theorem Together.bind {I J : View → View → Prop} {d₁ d₂ : Nat} {x y : CompileM α} {f g : α → CompileM β}
    {s₁ s₂ : CompileState} (h : Together J d₁ d₂ (x.outcome s₁) (y.outcome s₂))
    (hnext : ∀ a t₁ t₂, x.Gives s₁ a t₁ → J t₁.view t₂.view → t₁.depth = d₁ → t₂.depth = d₂ →
      Together I d₁ d₂ ((f a).outcome t₁) ((g a).outcome t₂)) :
    Together I d₁ d₂ ((x >>= f).outcome s₁) ((y >>= g).outcome s₂) := by
  rw [CompileM.outcome_bind, CompileM.outcome_bind]
  generalize hx : x.outcome s₁ = o₁ at h
  generalize y.outcome s₂ = o₂ at h
  cases h with
  | tooDeep o pos t => exact .tooDeep _ pos t
  | fails e t₁ t₂ => exact .fails e t₁ t₂
  | @gives a t₁ t₂ ht hd₁ hd₂ => exact hnext a t₁ t₂ hx ht hd₁ hd₂

theorem Options.exceeds_mono {o : Options} {m n : Nat} (h : o.exceeds n = false) (hle : m ≤ n) :
    o.exceeds m = false := by
  simp only [Options.exceeds, decide_eq_false_iff_not] at h ⊢
  omega

namespace Lockstep

variable {I : View → View → Prop}

theorem pure (a : α) : Lockstep I (pure a) (pure a) := fun _ _ hI _ => .gives a hI rfl rfl

theorem throw (e : Failure) : Lockstep I (throw e : CompileM α) (throw e) := fun s₁ s₂ _ _ => .fails e s₁ s₂

theorem count (f : Stats → Stats) : Lockstep I (CompileM.count f) (CompileM.count f) :=
  fun _ _ hI _ => .gives () hI rfl rfl

theorem sequence {x y : CompileM α} {f g : α → CompileM β} (hx : Lockstep I x y)
    (hfg : ∀ a, x.CanGive a → Lockstep I (f a) (g a)) : Lockstep I (x >>= f) (y >>= g) := by
  intro s₁ s₂ hI hd
  apply (hx s₁ s₂ hI hd).bind
  intro a t₁ t₂ ha ht hd₁ hd₂
  have hnext := hfg a ⟨s₁, t₁, ha⟩ t₁ t₂ ht (by omega)
  rwa [hd₁, hd₂] at hnext

theorem nested {o : Options} {x y : CompileM α} (pos : Pos) (h : Lockstep I x y) :
    Lockstep I (CompileM.nested o pos x) (CompileM.nested o pos y) := by
  intro s₁ s₂ hI hd
  rw [CompileM.outcome_nested, CompileM.outcome_nested]
  cases hexceeds : o.exceeds (s₂.depth + 1) with
  | true => exact .tooDeep _ pos s₂
  | false =>
    rw [Options.exceeds_mono hexceeds (Nat.add_le_add_right hd 1)]
    have hbody := h s₁.deeper s₂.deeper hI (Nat.add_le_add_right hd 1)
    generalize x.outcome s₁.deeper = o₁ at hbody
    generalize y.outcome s₂.deeper = o₂ at hbody
    cases hbody with
    | tooDeep o pos t => exact .tooDeep _ pos _
    | fails e t₁ t₂ => exact .fails e _ _
    | gives a ht hd₁ hd₂ =>
      have hd₁ : _ = s₁.depth + 1 := hd₁
      have hd₂ : _ = s₂.depth + 1 := hd₂
      exact .gives a ht (by simp only; omega) (by simp only; omega)

/-- A step that reads and changes the view only, from states with the same view. -/
theorem of_view {x : CompileM α} (value : View → α) (next : View → View)
    (hx : ∀ s, ∃ t, x.Gives s (value s.view) t ∧ t.view = next s.view ∧ t.depth = s.depth) :
    Lockstep (· = ·) x x := by
  intro s₁ s₂ hview hd
  obtain ⟨t₁, h₁, ht₁, hd₁⟩ := hx s₁
  obtain ⟨t₂, h₂, ht₂, hd₂⟩ := hx s₂
  rw [show x.outcome s₁ = _ from h₁, show x.outcome s₂ = _ from h₂, hview]
  exact .gives _ (by rw [ht₁, ht₂, hview]) hd₁ hd₂

theorem leaveClosure (outer : CaptureSet) :
    Lockstep (· = ·) (CompileM.leaveClosure outer) (CompileM.leaveClosure outer) := by
  intro s₁ s₂ hview _
  obtain ⟨hscopes, hcaptures⟩ := Prod.mk.inj hview
  rw [CompileM.outcome_leaveClosure, CompileM.outcome_leaveClosure, hscopes, hcaptures]
  cases s₂.scopes.pop? with
  | none => exact .fails _ _ _
  | some scopes => exact .gives _ rfl rfl rfl

theorem closure {o : Options} {x y : CompileM (List (ValuesOp F))} (pos : Pos) (params : List Name)
    (h : Lockstep (· = ·) x y) :
    Lockstep (· = ·) (closureAround o pos params x) (closureAround o pos params y) := by
  refine nested pos (sequence ?_ fun outer _ => sequence h fun pipelines _ =>
    sequence (leaveClosure outer) fun captures _ => pure _)
  exact of_view (fun v => v.2) (fun v => (params.foldl (·.bind · .any) v.1.push, ∅))
    fun s => ⟨s.entered params, rfl, rfl, rfl⟩

theorem forwarding {o : Options} {x y : CompileM (List (ValuesOp F))} (pos : Pos) (params : List Name)
    (h : Lockstep (· = ·) x y) :
    Lockstep (· = ·) (forwarding (closureAround o pos params x))
      (forwarding (closureAround o pos params y)) := by
  refine sequence (closure pos params h) fun c _ => sequence ?_ fun _ _ => pure _
  exact of_view (fun _ => ()) (fun v => (v.1, (c.captures.forward v.1 v.2).1)) fun _ => ⟨_, rfl, rfl, rfl⟩

end Lockstep

/-- Everything a compilation is made of runs in lockstep from states with the same view. -/
theorem lockstep (o : Options) : StepRelation .all o o (Lockstep (· = ·)) where
  pure := Lockstep.pure
  sequence := Lockstep.sequence
  reject _ _ := Lockstep.throw _
  malformed _ := Lockstep.throw _
  count f _ := Lockstep.count f
  bindName n t := .of_view (fun _ => ()) (fun v => (v.1.bind n t, v.2)) fun _ => ⟨_, rfl, rfl, rfl⟩
  unbind n := .of_view (fun _ => ()) (fun v => (v.1.unbind n, v.2)) fun _ => ⟨_, rfl, rfl, rfl⟩
  hasLocal _ := .of_view (fun v => v.1.hasLocal _) id fun s => ⟨s, rfl, rfl, rfl⟩
  resolve _ := .of_view (fun v => (v.1.resolve _ v.2).1) (fun v => (v.1, (v.1.resolve _ v.2).2))
    fun _ => ⟨_, rfl, rfl, rfl⟩
  nested := Lockstep.nested
  closure := Lockstep.closure
  forwarding := Lockstep.forwarding

/-- The special forms that are registered do not look at how deep they are nested and what was counted,
as far as the steps that compile their arguments do not. -/
def Env.DepthBlind (env : Env F) : Prop := SpecialsRelated .all (Lockstep (· = ·)) env env

theorem Env.DepthBlind.lockstep {env : Env F} (h : env.DepthBlind) (ps : List Pipeline) :
    Lockstep (· = ·) (compilePipelines env ps) (compilePipelines env ps) :=
  compilePipelines_respects ⟨ShellOps.lockstep env.options, .refl env, h⟩ ps (Allowance.allows_all _ _)

/-! ### Special forms that keep to their interface -/

/-- Reading the names in scope and the captures respects `R`. -/
def ReadsView (R : {α : Type} → CompileM α → CompileM α → Prop) : Prop :=
  ∀ {α : Type} {read : CompileState → α}, (∀ s t, s.view = t.view → read s = read t) →
    R (do return read (← get)) (do return read (← get))

/-- The special forms that are registered use the unit through the interface it has for them: they raise
errors, look up, bind and unbind names, ask which are local, read the names in scope and the captures,
and compile words and closure literals of their form. Depth and counts are no part of it. So whatever
all of this respects, they respect. -/
def Env.ByInterface (env : Env F) : Prop :=
  ∀ {R : {α : Type} → CompileM α → CompileM α → Prop}, FormRelation .all R → ReadsView R →
    SpecialsRelated .all R env env

theorem Env.ByInterface.orderly {env : Env F} (h : env.ByInterface) : env.Orderly := by
  refine h (keepsCoherent env.options).toFormRelation fun _ => ?_
  exact ⟨fun hs => hs, fun hgives => by rw [← (Prod.mk.inj hgives).2]⟩

theorem Env.ByInterface.depthBlind {env : Env F} (h : env.ByInterface) : env.DepthBlind := by
  refine h (lockstep env.options).toFormRelation fun {_ read} hread => ?_
  refine .of_view (fun v => read ⟨v.1, v.2, 0, {}⟩) id fun s => ⟨s, ?_, rfl, rfl⟩
  rw [hread ⟨s.view.1, s.view.2, 0, {}⟩ s rfl]
  rfl

section

variable {env : Env F} {R : {α : Type} → CompileM α → CompileM α → Prop}
variable (H : FormRelation .all R)
variable (hview : ReadsView R)
variable {call₁ call₂ : SpecialCall F} (hcall : RelatedCall .all R env env call₁ call₂)
include H hcall

include hview

end

end ShellOps
