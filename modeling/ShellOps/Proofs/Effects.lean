/-
# What compiling does to the names in scope

A piece of a script can change the innermost frame only through the forms that run in it: without
`del` among them no name gets lost, and without `var`, `del` and `fn` the frame stays as it is. The
frames around the innermost one stay as they are in any case, and names that were captured stay
captured.
-/
import ShellOps.Proofs.Building

namespace ShellOps

variable {α F : Type} {fs gs : List Form} {s t s' : CompileState}

/-- What a piece of a script, the forms of which are among `fs`, may do to the names in scope. -/
structure Effect (fs : List Form) (s s' : CompileState) : Prop where
  outer : s'.scopes.outer = s.scopes.outer
  captures : ∀ n ∈ s.captures, n ∈ s'.captures
  grows : (∀ f ∈ fs, ¬ f.Is .del) → ∀ n ∈ s.scopes.innermost, n ∈ s'.scopes.innermost
  keeps : (∀ f ∈ fs, ¬ f.Rebinds) → s'.scopes.innermost = s.scopes.innermost

namespace Effect

theorem refl (fs : List Form) (s : CompileState) : Effect fs s s :=
  ⟨rfl, fun _ h => h, fun _ _ h => h, fun _ => rfl⟩

theorem trans (h₁ : Effect fs s t) (h₂ : Effect fs t s') : Effect fs s s' where
  outer := by rw [h₂.outer, h₁.outer]
  captures n hn := h₂.captures n (h₁.captures n hn)
  grows hfs n hn := h₂.grows hfs n (h₁.grows hfs n hn)
  keeps hfs := by rw [h₂.keeps hfs, h₁.keeps hfs]

/-- More forms allow more effects. -/
theorem mono (h : Effect gs s s') (hsub : gs ⊆ fs) : Effect fs s s' where
  outer := h.outer
  captures := h.captures
  grows hfs := h.grows fun f hf => hfs f (hsub hf)
  keeps hfs := h.keeps fun f hf => hfs f (hsub hf)

/-- Frames that stay as they are, and captures that only grow. -/
theorem of_scopes (hscopes : s'.scopes = s.scopes) (hcaptures : ∀ n ∈ s.captures, n ∈ s'.captures) :
    Effect fs s s' where
  outer := by rw [hscopes]
  captures := hcaptures
  grows _ n hn := by rwa [hscopes]
  keeps _ := by rw [hscopes]

theorem nested (h : Effect fs s.deeper t) : Effect fs s { t with depth := t.depth - 1 } :=
  ⟨h.outer, h.captures, h.grows, h.keeps⟩

theorem counted (s : CompileState) (f : Stats → Stats) : Effect fs s (s.counted f) :=
  of_scopes rfl fun _ h => h

theorem looked (s : CompileState) (n : Name) : Effect fs s (s.looked n) := by
  refine of_scopes rfl fun m hm => ?_
  rw [Std.ExtTreeMap.mem_iff_isSome_getElem?] at hm ⊢
  obtain ⟨t, ht⟩ := Option.isSome_iff_exists.1 hm
  rw [CompileState.looked, ScopeStack.getElem?_resolve, ht]
  rfl

theorem lookedAll : ∀ (names : List Name) (s : CompileState),
    Effect fs s (names.foldl (·.looked ·) s)
  | [], s => refl fs s
  | n :: names, s => (looked s n).trans (lookedAll names (s.looked n))

theorem passedOn (s t : CompileState) : Effect fs s (s.passedOn t) := by
  refine of_scopes rfl fun m hm => ?_
  rw [Std.ExtTreeMap.mem_iff_isSome_getElem?] at hm ⊢
  obtain ⟨u, hu⟩ := Option.isSome_iff_exists.1 hm
  rw [CompileState.passedOn, CaptureSet.getElem?_forward, hu]
  rfl

/-- A form that rebinds names may change the innermost frame, as long as it is no `del` or no name
gets lost. -/
theorem of_rebinds {f : Form} (hf : f ∈ fs) (hrebinds : f.Rebinds)
    (houter : s'.scopes.outer = s.scopes.outer) (hcaptures : s'.captures = s.captures)
    (hgrows : ¬ f.Is .del → ∀ n ∈ s.scopes.innermost, n ∈ s'.scopes.innermost) : Effect fs s s' where
  outer := houter
  captures n hn := by rwa [hcaptures]
  grows hfs := hgrows (hfs f hf)
  keeps hfs := absurd hrebinds (hfs f hf)

end Effect

theorem mem_innermost_bind {s : ScopeStack} {n m : Name} {t : Ty} :
    m ∈ (s.bind n t).innermost ↔ m = n ∨ m ∈ s.innermost := by
  rw [ScopeStack.bind, Std.ExtTreeMap.mem_insert, Std.LawfulEqCmp.compare_eq_iff_eq, eq_comm]

theorem mem_innermost_foldl_bind {names : List Name} {m : Name} {s : ScopeStack} :
    m ∈ (names.foldl (·.bind · .any) s).innermost ↔ m ∈ names ∨ m ∈ s.innermost := by
  induction names generalizing s with
  | nil => simp
  | cons n names ih =>
    rw [List.foldl_cons, ih, mem_innermost_bind, List.mem_cons]
    tauto

/-- A chain of steps has the effects of its steps. -/
theorem effect_of_chain {R : CompileState → α → CompileState → Prop} {as : List α}
    (hR : ∀ {s a s'}, R s a s' → Effect fs s s') (h : Chain R s as s') : Effect fs s s' := by
  induction h with
  | nil => exact .refl fs _
  | cons ha _ ih => exact (hR ha).trans ih

theorem effect_of_pairs {R : CompileState → α → CompileState → Prop} {pairs : List (α × α)}
    (hR : ∀ {s a s'}, R s a s' → Effect fs s s') (h : Chain (InPairs R) s pairs s') :
    Effect fs s s' := by
  refine effect_of_chain (fun hpair => ?_) h
  obtain ⟨_, hfirst, hsecond⟩ := hpair
  exact (hR hfirst).trans (hR hsecond)

theorem Effect.command {r : Registry F} {op : ValuesOp F} {c : Command F}
    (h : CommandFound r op t c s') : Effect fs t s' := by
  cases h with
  | text text pos t => exact .looked t _
  | closure => exact .refl fs _

theorem Effect.head {env : Env F} {f : Form} {op : ValuesOp F} {c : Command F}
    {portOps : List (PortOp F)} {V : List Form → CompileState → ValuesOp F → CompileState → Prop}
    {Q : List Form → CompileState → PortOp F → CompileState → Prop}
    (hV : ∀ {fs s op s'}, V fs s op s' → Effect fs s s')
    (hQ : ∀ {fs s op s'}, Q fs s op s' → Effect fs s s') (hfs : formsInForm false f ⊆ fs)
    (h : FormHead env V Q f fs s op c portOps s') : Effect fs s s' := by
  obtain ⟨t, u, hop, hfound, hports⟩ := h.parts
  have hredirections : Effect fs u s' := (effect_of_chain hQ hports).mono
    (List.Subset.trans (redirections_subset_formsInForm false f) hfs)
  exact ((Effect.counted s _).trans (hV hop)).trans ((Effect.command hfound).trans hredirections)

/-- The arguments of a form, of which it may take only some. -/
theorem Effect.arguments {R : CompileState → α → CompileState → Prop} {as : List α} {f : Form}
    (hR : ∀ {s a s'}, R s a s' → Effect (formsInWords false f.args) s s')
    (hfs : formsInForm false f ⊆ fs) (h : Chain R s as s') : Effect fs s s' :=
  (effect_of_chain hR h).mono (List.Subset.trans (args_subset_formsInForm false f) hfs)

/-- The form `var` binds names. -/
theorem Effect.bound {f : Form} (hf : f.Is .var) (hfs : formsInForm false f ⊆ fs)
    (names : List Name) : Effect fs s (s.bound names) :=
  .of_rebinds (hfs (mem_formsInForm false f)) (.inl hf) (ScopeStack.outer_foldl_bind names .any _) rfl
    fun _ _ hn => mem_innermost_foldl_bind.2 (.inr hn)

/-- The form `fn` binds a name. -/
theorem Effect.boundFunction {f : Form} (hf : f.Is .fn) (hfs : formsInForm false f ⊆ fs)
    (n : Name) (t : Ty) : Effect fs s { s with scopes := s.scopes.bind n t } :=
  .of_rebinds (hfs (mem_formsInForm false f)) (.inr (.inr hf)) rfl rfl
    fun _ _ hn => mem_innermost_bind.2 (.inr hn)

/-- The form `del` can do anything to the innermost frame. -/
theorem Effect.deleted {f : Form} (hf : f.Is .del) (hfs : formsInForm false f ⊆ fs) (frame : Frame) :
    Effect fs s { s with scopes := { s.scopes with innermost := frame } } :=
  .of_rebinds (hfs (mem_formsInForm false f)) (.inr (.inl hf)) rfl rfl fun hdel => absurd hf hdel

end ShellOps
