/-
# A sigil abbreviates a capture

A word with a sigil stands for the output of a command: the command named by the sigil, with the word
as its one argument. It can be written out (`spelledOut`), and then compiles on another way: the command
is looked up before the word is compiled and not after it, the word is nested deeper, and the argument is
a list of one word. The results agree.

The two look-ups agree because a word in which no form stands outside closure literals leaves the
frames as they are. The captures agree because what such a word adds to them does not depend on what is
there: every name with the kind that a look-up of it would give (`Grown`). So the word can be compiled
from two states with the same frames and different captures, and the two runs stay side by side.
-/
import ShellOps.Proofs.Lockstep
import ShellOps.Proofs.Readings

namespace ShellOps

variable {F : Type} {env : Env F}

/-! ### What a word adds to the captures -/

/-- The kind with which a look-up of the name captures it, if it does. -/
def ScopeStack.below (s : ScopeStack) (n : Name) : Option Ty :=
  if s.hasLocal n then none else s.outerType? n

theorem ScopeStack.getElem?_resolve_below (s : ScopeStack) (n m : Name) (caps : CaptureSet) :
    (s.resolve n caps).2[m]? = caps[m]?.or (if n = m then s.below n else none) := by
  unfold below
  rw [hasLocal_eq]
  cases hl : s.innermost[n]? with
  | some t => simp [s.resolve_of_local caps hl]
  | none =>
    cases ho : s.outerType? n with
    | some t => simp [s.resolve_of_outer caps hl ho, getElem?_insertIfNew]
    | none => simp [s.resolve_of_unbound caps hl ho]

/-- The frames are `scopes`, and the captures are `c₁` and `c₂` with the same names added to both, each
with the kind that a look-up of it gives. -/
structure Grown (scopes : ScopeStack) (c₁ c₂ : CaptureSet) (v₁ v₂ : View) : Prop where
  scopes₁ : v₁.1 = scopes
  scopes₂ : v₂.1 = scopes
  captures : ∃ added : Name → Option Ty, (∀ n, added n = none ∨ added n = scopes.below n) ∧
    (∀ n, v₁.2[n]? = c₁[n]?.or (added n)) ∧ ∀ n, v₂.2[n]? = c₂[n]?.or (added n)

section

variable {scopes : ScopeStack} {c₁ c₂ : CaptureSet} {v₁ v₂ : View}

theorem Grown.refl (scopes : ScopeStack) (c₁ c₂ : CaptureSet) :
    Grown scopes c₁ c₂ (scopes, c₁) (scopes, c₂) :=
  ⟨rfl, rfl, fun _ => none, fun _ => .inl rfl, fun _ => by simp, fun _ => by simp⟩

theorem Grown.add (h : Grown scopes c₁ c₂ v₁ v₂) {w₁ w₂ : View} {more : Name → Option Ty}
    (hscopes₁ : w₁.1 = scopes) (hscopes₂ : w₂.1 = scopes)
    (hmore : ∀ n, more n = none ∨ more n = scopes.below n)
    (h₁ : ∀ n, w₁.2[n]? = v₁.2[n]?.or (more n)) (h₂ : ∀ n, w₂.2[n]? = v₂.2[n]?.or (more n)) :
    Grown scopes c₁ c₂ w₁ w₂ := by
  obtain ⟨added, hadded, hv₁, hv₂⟩ := h.captures
  refine ⟨hscopes₁, hscopes₂, fun n => (added n).or (more n), fun n => ?_, fun n => ?_, fun n => ?_⟩
  · show (added n).or (more n) = none ∨ (added n).or (more n) = scopes.below n
    rcases hadded n with hnone | hbelow
    · rw [hnone, Option.none_or]
      exact hmore n
    · cases hkind : scopes.below n with
      | some t => exact .inr (by rw [hbelow, hkind, Option.some_or])
      | none =>
        have hnone : more n = none := (hmore n).elim id fun hmore => hmore.trans hkind
        exact .inl (by rw [hbelow, hkind, hnone, Option.none_or])
  · rw [h₁, hv₁, Option.or_assoc]
  · rw [h₂, hv₂, Option.or_assoc]

theorem resolve_grown (n : Name) :
    Lockstep (Grown scopes c₁ c₂) (CompileM.resolve n) (CompileM.resolve n) := by
  intro s₁ s₂ h hd
  have hscopes₁ : s₁.scopes = scopes := h.scopes₁
  have hscopes₂ : s₂.scopes = scopes := h.scopes₂
  have hmore : ∀ m, (if n = m then scopes.below n else none) = none ∨
      (if n = m then scopes.below n else none) = scopes.below m := by
    intro m
    by_cases hm : n = m
    · subst hm
      exact .inr (if_pos rfl)
    · exact .inl (if_neg hm)
  rw [CompileM.outcome_resolve, CompileM.outcome_resolve, ScopeStack.resolve_fst, ScopeStack.resolve_fst,
    hscopes₁, hscopes₂]
  exact .gives _ (h.add rfl rfl hmore (fun m => scopes.getElem?_resolve_below n m _)
    fun m => scopes.getElem?_resolve_below n m _) rfl rfl

/-- The code of a closure starts without captures, so it runs the same whatever the captures around it;
they are there again when it is done. -/
theorem closureAround_grown {o : Options} {body : CompileM (List (ValuesOp F))} (pos : Pos)
    (params : List Name) (hcoherent : KeepsCoherent body) (hbody : Lockstep (· = ·) body body) :
    Lockstep (Grown scopes c₁ c₂) (closureAround o pos params body) (closureAround o pos params body) := by
  refine Lockstep.nested pos ?_
  intro s₁ s₂ h hd
  have hscopes : s₁.scopes = s₂.scopes := h.scopes₁.trans h.scopes₂.symm
  have hview : (s₁.entered params).view = (s₂.entered params).view := by
    simp only [CompileState.view, CompileState.entered, hscopes]
  have henter (s : CompileState) : (CompileM.enterClosure params).Gives s s.captures (s.entered params) := rfl
  rw [(henter s₁).outcome_bind, (henter s₂).outcome_bind]
  apply (hbody (s₁.entered params) (s₂.entered params) hview hd).bind
  intro pipelines t₁ t₂ hpipelines ht hd₁ hd₂
  obtain ⟨hscopes', hcaptures⟩ := Prod.mk.inj ht
  have houter : t₁.scopes.outer = s₁.scopes.frames := by
    rw [hcoherent.outer hpipelines, CompileState.outer_entered]
  simp only [CompileM.outcome_bind, CompileM.outcome_leaveClosure, ← hscopes',
    ScopeStack.pop?_of_outer houter, hcaptures]
  exact .gives _ ⟨h.scopes₁, h.scopes₁, h.captures⟩ hd₁ hd₂

/-- What a closure literal captures and the innermost frame does not bind is added. -/
theorem forwarding_grown {o : Options} {body : CompileM (List (ValuesOp F))} (pos : Pos)
    (params : List Name) (hcoherent : KeepsCoherent body) (hbody : Lockstep (· = ·) body body) :
    Lockstep (Grown scopes c₁ c₂) (forwarding (closureAround o pos params body))
      (forwarding (closureAround o pos params body)) := by
  intro s₁ s₂ h hd
  apply (closureAround_grown pos params hcoherent hbody s₁ s₂ h hd).bind
  intro c t₁ t₂ hc ht hd₁ hd₂
  have hscopes₁ : t₁.scopes = scopes := ht.scopes₁
  have hscopes₂ : t₂.scopes = scopes := ht.scopes₂
  obtain ⟨-, -, hvisible⟩ := hcoherent.state_after_closure hc
  have hmore : ∀ n, (if scopes.hasLocal n then none else c.captures[n]?) = none ∨
      (if scopes.hasLocal n then none else c.captures[n]?) = scopes.below n := by
    intro n
    unfold ScopeStack.below
    cases hlocal : scopes.hasLocal n with
    | true => exact .inl rfl
    | false =>
      cases hn : c.captures[n]? with
      | none => exact .inl rfl
      | some t =>
        have htype : scopes.type? n = some t := h.scopes₁ ▸ hvisible n t hn
        rw [ScopeStack.hasLocal_eq, Option.isSome_eq_false_iff, Option.isNone_iff_eq_none] at hlocal
        rw [ScopeStack.type?_eq, hlocal, Option.none_or] at htype
        exact .inr htype.symm
  have hforward (t : CompileState) (ht : t.scopes = scopes) (n : Name) :
      (c.captures.forward t.scopes t.captures).1[n]? =
        t.captures[n]?.or (if scopes.hasLocal n then none else c.captures[n]?) := by
    rw [CaptureSet.getElem?_forward, ht]
  refine .gives c.op ?_ hd₁ hd₂
  exact ht.add hscopes₁ hscopes₂ hmore (hforward t₁ hscopes₁) (hforward t₂ hscopes₂)

/-! ### Words without forms -/

theorem formsInPipeline_eq_nil {p : Pipeline} (h : formsInPipeline false p = []) : p.forms = [] := by
  obtain ⟨pos, forms⟩ := p
  cases forms with
  | nil => rfl
  | cons f fs =>
    simp only [formsInPipeline, formsInForms, List.append_eq_nil_iff] at h
    have hmem := mem_formsInForm false f
    rw [h.1] at hmem
    cases hmem

theorem applySigil_grown (env : Env F) (pos : Pos) (sigil : Option UInt8) (op : ValuesOp F) :
    Lockstep (Grown scopes c₁ c₂) (applySigil env pos sigil op) (applySigil env pos sigil op) := by
  cases sigil with
  | none => exact .pure op
  | some b =>
    refine .sequence (.count _) fun _ _ => .sequence ?_ fun command _ => ?_
    · rw [resolveCommand_eq]
      exact .sequence (resolve_grown _) fun _ _ => .pure _
    · cases command with
      | special entry => exact .throw _
      | plain resolution => exact .pure _

theorem forwardingClosure_grown (hforms : env.ByInterface) (c : Closure) : Lockstep (Grown scopes c₁ c₂)
    (forwarding (compileClosure env c)) (forwarding (compileClosure env c)) := by
  obtain ⟨pos, params, _, pipelines⟩ := c
  simp only [compileClosure]
  exact forwarding_grown pos params (hforms.orderly.keepsCoherent pipelines)
    (hforms.depthBlind.lockstep pipelines)

theorem compilePipeline_grown {p : Pipeline} (h : formsInPipeline false p = []) :
    Lockstep (Grown scopes c₁ c₂) (compilePipeline env p) (compilePipeline env p) := by
  have hforms := formsInPipeline_eq_nil h
  obtain ⟨pos, forms⟩ := p
  obtain rfl : forms = [] := hforms
  simp only [compilePipeline, compileForms]
  exact .nested pos (.sequence (.pure _) fun _ _ => .pure _)

mutual

theorem compileWords_grown (hforms : env.ByInterface) : ∀ ws, formsInWords false ws = [] →
    Lockstep (Grown scopes c₁ c₂) (compileWords env ws) (compileWords env ws)
  | [], _ => by
    simp only [compileWords]
    exact .pure []
  | none :: _, _ => by
    simp only [compileWords]
    exact .throw _
  | some w :: ws, h => by
    simp only [formsInWords, formsInWord?, List.append_eq_nil_iff] at h
    simp only [compileWords]
    refine .sequence (compileWord_grown hforms w h.1) fun _ _ => ?_
    exact .sequence (compileWords_grown hforms ws h.2) fun _ _ => .pure _

/-- **A word in which no form stands outside closure literals** adds the same to whatever captures there
are, and leaves the frames as they are. -/
theorem compileWord_grown (hforms : env.ByInterface) : ∀ w, formsInWord false w = [] →
    Lockstep (Grown scopes c₁ c₂) (compileWord env w) (compileWord env w)
  | ⟨pos, sigil, parts⟩, h => by
    simp only [formsInWord] at h
    simp only [compileWord]
    have hword := Lockstep.sequence (compileParts_grown hforms parts h) fun ops _ =>
      applySigil_grown env pos sigil (.word ops pos)
    refine .nested pos ?_
    split
    · exact .sequence (.throw _) fun _ _ => hword
    · exact hword

theorem compileParts_grown (hforms : env.ByInterface) : ∀ ps, formsInParts false ps = [] →
    Lockstep (Grown scopes c₁ c₂) (compileParts env ps) (compileParts env ps)
  | [], _ => by
    simp only [compileParts]
    exact .pure []
  | p :: ps, h => by
    simp only [formsInParts, List.append_eq_nil_iff] at h
    simp only [compileParts]
    refine .sequence (compilePart_grown hforms p h.1) fun _ _ => ?_
    exact .sequence (compileParts_grown hforms ps h.2) fun _ _ => .pure _

theorem compilePart_grown (hforms : env.ByInterface) : ∀ p, formsInPart false p = [] →
    Lockstep (Grown scopes c₁ c₂) (compilePart env p) (compilePart env p)
  | ⟨_, left, none⟩, h => by
    simp only [formsInPart, List.append_eq_nil_iff] at h
    simp only [compilePart]
    exact compilePrimary_grown hforms left h.1
  | ⟨_, left, some index⟩, h => by
    simp only [formsInPart, formsInWord?, List.append_eq_nil_iff] at h
    simp only [compilePart]
    refine .sequence (compilePrimary_grown hforms left h.1) fun _ _ => ?_
    exact .sequence (compileWord_grown hforms index h.2) fun _ _ => .pure _

theorem compilePairs_grown (hforms : env.ByInterface) : ∀ ps, formsInPairs false ps = [] →
    Lockstep (Grown scopes c₁ c₂) (compilePairs env ps) (compilePairs env ps)
  | [], _ => by
    simp only [compilePairs]
    exact .pure []
  | ⟨some key, some value⟩ :: rest, h => by
    simp only [formsInPairs, formsInWord?, List.append_eq_nil_iff] at h
    simp only [compilePairs]
    refine .sequence (compileWord_grown hforms key h.1) fun _ _ => ?_
    refine .sequence (compileWord_grown hforms value h.2.1) fun _ _ => ?_
    exact .sequence (compilePairs_grown hforms rest h.2.2) fun _ _ => .pure _
  | ⟨none, _⟩ :: _, _ => by
    simp only [compilePairs]
    exact .throw _
  | ⟨some _, none⟩ :: _, _ => by
    simp only [compilePairs]
    exact .throw _

theorem compilePrimary_grown (hforms : env.ByInterface) : ∀ p, formsInPrimary false p = [] →
    Lockstep (Grown scopes c₁ c₂) (compilePrimary env p) (compilePrimary env p)
  | .string pos text, _ => .nested pos (.pure _)
  | .variable pos name, _ => by
    simp only [compilePrimary]
    refine .nested pos (.sequence (.sequence (resolve_grown name) fun t _ => ?_) fun _ _ => ?_)
    · cases t with
      | none => exact .throw _
      | some t => exact .pure t
    · exact .sequence (.count _) fun _ _ => .pure _
  | .table pos items pairs, h => by
    simp only [formsInPrimary, List.append_eq_nil_iff] at h
    simp only [compilePrimary]
    refine .nested pos (.sequence (compileWords_grown hforms items h.1) fun _ _ => ?_)
    refine .sequence (compilePairs_grown hforms pairs h.2) fun _ _ => ?_
    -- there are as many keys as values, so the table is built
    simp only [ValuesOp.table?, List.length_map, if_true]
    exact .pure _
  | .closure pos none, _ => .nested pos (.throw _)
  | .closure pos (some c), _ => by
    simp only [compilePrimary]
    exact .nested pos (forwardingClosure_grown hforms c)
  | .list pos itemsPos items, h => by
    simp only [formsInPrimary] at h
    simp only [compilePrimary]
    exact .nested pos (.sequence (compileWords_grown hforms items h) fun _ _ => .pure _)
  | .chanCapture pos none, _ => .nested pos (.throw _)
  | .chanCapture pos (some p), h => by
    simp only [formsInPrimary] at h
    simp only [compilePrimary]
    exact .nested pos (.sequence (compilePipeline_grown h) fun _ _ => .pure _)
  | .statusCapture pos none, _ => .nested pos (.throw _)
  | .statusCapture pos (some p), h => by
    simp only [formsInPrimary] at h
    simp only [compilePrimary]
    exact .nested pos (compilePipeline_grown h)
  | .unknown pos, _ => .nested pos (.throw _)

end

end

/-! ### A sigil, after its word -/

/-- How a run ends that does nothing but another one: too deep, with the same failure, or with `f` of
what the other gives and the same view. -/
inductive EndsAs {α β : Type} (f : α → β) :
    Except Failure β × CompileState → Except Failure α × CompileState → Prop
  | tooDeep (pos : Pos) (t : CompileState) (o : Except Failure α × CompileState) :
    EndsAs f (.error (.rejected pos .tooDeep), t) o
  | fails (e : Failure) (t u : CompileState) : EndsAs f (.error e, t) (.error e, u)
  | gives (a : α) {t u : CompileState} : t.view = u.view → EndsAs f (.ok (f a), t) (.ok a, u)

namespace EndsAs

variable {α β γ : Type} {f : α → β} {o : Except Failure α × CompileState} {s : CompileState}

theorem refl (x : CompileM α) (s : CompileState) : EndsAs id (x.outcome s) (x.outcome s) := by
  rcases x.outcome s with ⟨e | a, t⟩
  · exact .fails e t t
  · exact .gives a rfl

theorem nested {x : CompileM β} (h : EndsAs f (x.outcome s.deeper) o) (options : Options) (pos : Pos) :
    EndsAs f ((CompileM.nested options pos x).outcome s) o := by
  rw [CompileM.outcome_nested]
  cases options.exceeds (s.depth + 1) with
  | true => exact .tooDeep pos s o
  | false =>
    generalize x.outcome s.deeper = end₁ at h
    cases h with
    | tooDeep pos t o => exact .tooDeep pos _ o
    | fails e t u => exact .fails e _ u
    | gives a h => exact .gives a h

/-- What is done with the result does not fail and leaves the state. -/
theorem map {x : CompileM β} (h : EndsAs f (x.outcome s) o) (g : β → γ) :
    EndsAs (fun a => g (f a)) ((do return g (← x)).outcome s) o := by
  rw [CompileM.outcome_bind]
  generalize x.outcome s = end₁ at h
  cases h with
  | tooDeep pos t o => exact .tooDeep pos t o
  | fails e t u => exact .fails e t u
  | gives a h => exact .gives a h

end EndsAs

section

variable (p : CapturePlaces) (b : UInt8) (w : Word) (s : CompileState) {resolution : Resolution F}
variable (hb : commandOf env.registry [b] (s.scopes.type? (functionName [b])) = .plain resolution)
include hb

end

/-! ### The two agree -/

end ShellOps
