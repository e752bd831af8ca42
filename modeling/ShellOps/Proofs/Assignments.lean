/-
# Giving values to names

The forms `var` and `set` run all their values first, then give them to the names one after the other.
What an evaluator does with variables is told by a store: which variable a name denotes, and what a
variable holds. Where different names denote different variables, giving values one after the other is
the same as giving them all at once: each name ends with the value at its last place in the list, and
nothing else changes (`assignments_are_simultaneous`). A swap needs no third name.

`set` looks a name up just before it assigns to it. If a name is missing by then, those before it in the
list have their new values already (`set_assigns_up_to_missing`), so `set` is not all or nothing
(`set_leaves_half_assigned`). `var` has no such failure.
-/
import ShellOps.Machine.Basic
import ShellOps.Proofs.Running
import ShellOps.Proofs.Steps

namespace ShellOps

variable {w : World} {F : Type}

/-! ### Stores -/

/-- What is kept of variables: the one that a name denotes, and what each of them holds. -/
structure VariableStore (w : World) where
  denoted : w.State → Name → Option w.Variable
  content : w.State → w.Variable → Option w.Value

namespace VariableStore

variable (S : VariableStore w)

/-- What the variable of a name holds. -/
def value (σ : w.State) (n : Name) : Option w.Value := (S.denoted σ n).bind (S.content σ)

/-- The store is the same in both states. -/
def Same (σ σ' : w.State) : Prop := S.denoted σ' = S.denoted σ ∧ S.content σ' = S.content σ

/-- Names denote variables that are there. -/
def Present (σ : w.State) : Prop := ∀ n x, S.denoted σ n = some x → (S.content σ x).isSome

/-- Names denote variables that are there, and different names different variables. -/
structure Proper (σ : w.State) : Prop where
  present : S.Present σ
  distinct : ∀ {m n x}, S.denoted σ m = some x → S.denoted σ n = some x → m = n

/-- From `σ` to `σ'` the name `n` gets the value `v`, which the variable `x` holds. That variable is a new
one, or the one that the name had. -/
structure Assigned (n : Name) (x : w.Variable) (v : w.Value) (σ σ' : w.State) : Prop where
  origin : S.content σ x = none ∨ S.denoted σ n = some x
  named : S.denoted σ' n = some x
  names : ∀ m ≠ n, S.denoted σ' m = S.denoted σ m
  stored : S.content σ' x = some v
  rest : ∀ y ≠ x, S.content σ' y = S.content σ y

/-- Names get values one after the other. -/
inductive AssignedAll : List (Name × w.Value) → w.State → w.State → Prop
  | nil {σ} : AssignedAll [] σ σ
  | cons {n x v σ τ pairs σ'} : S.Assigned n x v σ τ → AssignedAll pairs τ σ' →
    AssignedAll ((n, v) :: pairs) σ σ'

/-- From `σ` to `σ'` the names get the values as if all at once: each name has the value at its last place
in the list. Other names denote what they did, and every variable that none of the names denotes is as it
was. -/
structure Updates (pairs : List (Name × w.Value)) (σ σ' : w.State) : Prop where
  last : ∀ front {n v rest}, pairs = front ++ (n, v) :: rest → (∀ p ∈ rest, p.1 ≠ n) →
    S.value σ' n = some v
  names : ∀ m, (∀ p ∈ pairs, p.1 ≠ m) → S.denoted σ' m = S.denoted σ m
  untouched : ∀ y, (S.content σ y).isSome → (∀ p ∈ pairs, S.denoted σ p.1 ≠ some y) →
    S.content σ' y = S.content σ y

variable {S} {n : Name} {x : w.Variable} {v : w.Value} {pairs : List (Name × w.Value)}
variable {σ τ σ' : w.State}

theorem Present.of_same (hσ : S.Present σ) (h : S.Same σ σ') : S.Present σ' := by
  intro n x hn
  rw [h.1] at hn
  rw [h.2]
  exact hσ n x hn

theorem Proper.of_same (hσ : S.Proper σ) (h : S.Same σ σ') : S.Proper σ' where
  present := hσ.present.of_same h
  distinct hm hn := by
    rw [h.1] at hm hn
    exact hσ.distinct hm hn

theorem Assigned.of_same (hsame : S.Same σ τ) (h : S.Assigned n x v τ σ') : S.Assigned n x v σ σ' := by
  obtain ⟨hdenoted, hcontent⟩ := hsame
  obtain ⟨horigin, hnamed, hnames, hstored, hrest⟩ := h
  rw [hdenoted] at horigin hnames
  rw [hcontent] at horigin hrest
  exact ⟨horigin, hnamed, hnames, hstored, hrest⟩

/-- The variable that gets the value has no other name. -/
theorem Assigned.ne_of_denoted (h : S.Assigned n x v σ σ') (hσ : S.Proper σ) {m : Name} (hm : m ≠ n) :
    S.denoted σ m ≠ some x := by
  intro hdenoted
  rcases h.origin with hnew | hold
  · have hpresent := hσ.present m x hdenoted
    rw [hnew] at hpresent
    cases hpresent
  · exact hm (hσ.distinct hdenoted hold)

/-- A name that denotes another variable has done so before. -/
theorem Assigned.denoted_of_ne (h : S.Assigned n x v σ σ') {m : Name} {y : w.Variable} (hy : y ≠ x)
    (hm : S.denoted σ' m = some y) : S.denoted σ m = some y := by
  by_cases hmn : m = n
  · rw [hmn, h.named] at hm
    exact absurd (Option.some.inj hm).symm hy
  · rwa [h.names m hmn] at hm

theorem Assigned.present (h : S.Assigned n x v σ σ') (hσ : S.Present σ) : S.Present σ' := by
  intro m y hm
  by_cases hy : y = x
  · rw [hy, h.stored]
    rfl
  · rw [h.rest y hy]
    exact hσ m y (h.denoted_of_ne hy hm)

theorem Assigned.proper (h : S.Assigned n x v σ σ') (hσ : S.Proper σ) : S.Proper σ' where
  present := h.present hσ.present
  distinct {m k y} hm hk := by
    by_cases hy : y = x
    · subst hy
      have honly : ∀ {l}, S.denoted σ' l = some y → l = n := fun {l} hl => by
        by_contra hln
        rw [h.names l hln] at hl
        exact h.ne_of_denoted hσ hln hl
      rw [honly hm, honly hk]
    · exact hσ.distinct (h.denoted_of_ne hy hm) (h.denoted_of_ne hy hk)

namespace AssignedAll

theorem denoted_of_ne (h : S.AssignedAll pairs σ σ') {m : Name} (hm : ∀ p ∈ pairs, p.1 ≠ m) :
    S.denoted σ' m = S.denoted σ m := by
  induction h with
  | nil => rfl
  | cons hfirst _ ih =>
    obtain ⟨hn, hrest⟩ := List.forall_mem_cons.1 hm
    rw [ih hrest, hfirst.names m (Ne.symm hn)]

/-- A variable that none of the names denotes is not reached: later on they denote it as little. -/
theorem content_of_untouched (h : S.AssignedAll pairs σ σ') {y : w.Variable}
    (hy : (S.content σ y).isSome) (hnames : ∀ p ∈ pairs, S.denoted σ p.1 ≠ some y) :
    S.content σ' y = S.content σ y := by
  induction h with
  | nil => rfl
  | @cons n x v σ τ pairs σ' hfirst _ ih =>
    obtain ⟨hn, hrest⟩ := List.forall_mem_cons.1 hnames
    have hyx : y ≠ x := by
      rintro rfl
      rcases hfirst.origin with hnew | hold
      · rw [hnew] at hy
        cases hy
      · exact hn hold
    have hkept : S.content τ y = S.content σ y := hfirst.rest y hyx
    rw [← hkept] at hy ⊢
    refine ih hy fun p hp => ?_
    by_cases hpn : p.1 = n
    · rw [hpn, hfirst.named]
      exact fun heq => hyx (Option.some.inj heq).symm
    · rw [hfirst.names p.1 hpn]
      exact hrest p hp

/-- The value at the last place of a name stays. -/
theorem value_of_last (h : S.AssignedAll pairs σ σ') (hσ : S.Proper σ) {front rest : List (Name × w.Value)}
    (hpairs : pairs = front ++ (n, v) :: rest) (hlast : ∀ p ∈ rest, p.1 ≠ n) : S.value σ' n = some v := by
  induction h generalizing front with
  | nil => simp at hpairs
  | @cons m x u σ τ pairs σ' hfirst hrest ih =>
    cases front with
    | cons p front => exact ih (hfirst.proper hσ) (List.cons.inj hpairs).2
    | nil =>
      simp only [List.nil_append, List.cons.injEq, Prod.mk.injEq] at hpairs
      obtain ⟨⟨rfl, rfl⟩, rfl⟩ := hpairs
      have hothers : ∀ p ∈ pairs, S.denoted τ p.1 ≠ some x := fun p hp hdenoted =>
        hlast p hp ((hfirst.proper hσ).distinct hdenoted hfirst.named)
      have hkept := hrest.content_of_untouched (by rw [hfirst.stored]; rfl) hothers
      rw [value, hrest.denoted_of_ne hlast, hfirst.named, Option.bind_some, hkept, hfirst.stored]

/-- **One after the other is all at once**, where different names denote different variables. -/
theorem updates (h : S.AssignedAll pairs σ σ') (hσ : S.Proper σ) : S.Updates pairs σ σ' where
  last _ := h.value_of_last hσ
  names _ := h.denoted_of_ne
  untouched _ := h.content_of_untouched

end AssignedAll

theorem Updates.of_same (h : S.Updates pairs σ τ) (hsame : S.Same τ σ') : S.Updates pairs σ σ' where
  last front _ _ _ hpairs hlast := by
    rw [value, hsame.1, hsame.2]
    exact h.last front hpairs hlast
  names m hm := by rw [hsame.1, h.names m hm]
  untouched y hy hnames := by rw [hsame.2, h.untouched y hy hnames]

end VariableStore

/-! ### Evaluators with a store -/

/-- An evaluator that keeps variables in a store: looking a name up finds what it denotes, setting a
variable changes what it holds, and defining a name makes it denote a variable that holds the value. -/
structure StoreEvaluator (S : VariableStore w) (ev : Evaluator w F) : Prop where
  lookup : ∀ n σ, ∃ σ', Run.outcome (ev.lookup n) σ = (.ok (S.denoted σ n), σ') ∧ S.Same σ σ'
  set : ∀ x v σ, (S.content σ x).isSome → ∃ σ', Run.outcome (ev.set x v) σ = (.ok (), σ') ∧
    S.denoted σ' = S.denoted σ ∧ S.content σ' x = some v ∧ ∀ y ≠ x, S.content σ' y = S.content σ y
  define : ∀ n v σ, ∃ x σ', Run.outcome (ev.define n v) σ = (.ok (), σ') ∧ S.Assigned n x v σ σ'

section

variable {S : VariableStore w} {ev : Evaluator w F} (hev : StoreEvaluator S ev)
include hev

theorem exists_defineAll (pairs : List (Name × w.Value)) (σ : w.State) :
    ∃ σ', Run.outcome (defineAll ev pairs) σ = (.ok (), σ') ∧ S.AssignedAll pairs σ σ' := by
  induction pairs generalizing σ with
  | nil => exact ⟨σ, rfl, .nil⟩
  | cons p pairs ih =>
    obtain ⟨n, v⟩ := p
    obtain ⟨x, τ, hdefine, hfirst⟩ := hev.define n v σ
    obtain ⟨σ', hrun, hrest⟩ := ih τ
    refine ⟨σ', ?_, .cons hfirst hrest⟩
    rw [defineAll, Run.outcome_bind, hdefine]
    exact hrun

/-- A name that denotes a variable gets its value. -/
theorem exists_assignAll_cons (pos : Pos) {n : Name} {x : w.Variable} (v : w.Value) {σ : w.State}
    (hσ : S.Present σ) (hn : S.denoted σ n = some x) (rest : List (Name × w.Value)) :
    ∃ τ, S.Assigned n x v σ τ ∧ S.denoted τ = S.denoted σ ∧
      Run.outcome (assignAll ev pos ((n, v) :: rest)) σ = Run.outcome (assignAll ev pos rest) τ := by
  obtain ⟨σ₁, hlookup, hsame⟩ := hev.lookup n σ
  have hn₁ : S.denoted σ₁ n = some x := by rw [hsame.1, hn]
  obtain ⟨τ, hset, hdenoted, hstored, hrest⟩ := hev.set x v σ₁ (hσ.of_same hsame n x hn₁)
  have hassigned : S.Assigned n x v σ₁ τ :=
    ⟨.inr hn₁, by rw [hdenoted, hn₁], fun m _ => by rw [hdenoted], hstored, hrest⟩
  refine ⟨τ, hassigned.of_same hsame, hdenoted.trans hsame.1, ?_⟩
  rw [assignAll, Run.outcome_bind, hlookup, hn]
  simp only [Run.outcome_bind, hset]

/-- As long as the names denote variables, they get their values. -/
theorem exists_assignAll_front (pos : Pos) (front rest : List (Name × w.Value)) {σ : w.State}
    (hσ : S.Present σ) (hfront : ∀ p ∈ front, (S.denoted σ p.1).isSome) :
    ∃ τ, S.AssignedAll front σ τ ∧ S.denoted τ = S.denoted σ ∧
      Run.outcome (assignAll ev pos (front ++ rest)) σ = Run.outcome (assignAll ev pos rest) τ := by
  induction front generalizing σ with
  | nil => exact ⟨σ, .nil, rfl, rfl⟩
  | cons p front ih =>
    obtain ⟨n, v⟩ := p
    obtain ⟨hn, hrest⟩ := List.forall_mem_cons.1 hfront
    obtain ⟨x, hx⟩ := Option.isSome_iff_exists.1 hn
    obtain ⟨σ₁, hfirst, hdenoted, hrun⟩ := exists_assignAll_cons hev pos v hσ hx (front ++ rest)
    rw [← hdenoted] at hrest
    obtain ⟨τ, hall, hdenoted', hrun'⟩ := ih (hfirst.present hσ) hrest
    exact ⟨τ, .cons hfirst hall, hdenoted'.trans hdenoted, hrun.trans hrun'⟩

theorem exists_assignAll (pos : Pos) {pairs : List (Name × w.Value)} {σ : w.State} (hσ : S.Present σ)
    (hpairs : ∀ p ∈ pairs, (S.denoted σ p.1).isSome) :
    ∃ σ', Run.outcome (assignAll ev pos pairs) σ = (.ok (), σ') ∧ S.AssignedAll pairs σ σ' ∧
      S.denoted σ' = S.denoted σ := by
  obtain ⟨σ', hall, hdenoted, hrun⟩ := exists_assignAll_front hev pos pairs [] hσ hpairs
  rw [List.append_nil] at hrun
  exact ⟨σ', hrun, hall, hdenoted⟩

/-- A name that denotes no variable ends the assignment. -/
theorem exists_assignAll_missing (pos : Pos) {n : Name} (v : w.Value) {σ : w.State}
    (hn : S.denoted σ n = none) (rest : List (Name × w.Value)) :
    ∃ σ', Run.outcome (assignAll ev pos ((n, v) :: rest)) σ =
      (.error ⟨pos, .variableNotFound n⟩, σ') ∧ S.Same σ σ' := by
  obtain ⟨σ', hlookup, hsame⟩ := hev.lookup n σ
  refine ⟨σ', ?_, hsame⟩
  rw [assignAll, Run.outcome_bind, hlookup, hn]
  rfl

end

/-! ### On the machine -/

namespace Machine

/-- The variables of the machine: names denote them by number, and numbers are places of its store. -/
def variableStore : VariableStore world where
  denoted σ n := σ.frame[n]?
  content σ x := σ.store[x]?

theorem assigned_bindNew (σ : State) (n : Name) (v : Value) :
    variableStore.Assigned n σ.store.size v σ (σ.bindNew n v) where
  origin := .inl (Array.getElem?_eq_none (Nat.le_refl _))
  named := Std.ExtTreeMap.getElem?_insert_self
  names m hm := by
    refine Std.ExtTreeMap.getElem?_insert.trans (if_neg fun heq => hm ?_)
    exact (Std.LawfulEqCmp.compare_eq_iff_eq.1 heq).symm
  stored := Array.getElem?_push_size
  rest y hy := by
    show (σ.store.push v)[y]? = σ.store[y]?
    rw [Array.getElem?_push, if_neg hy]

theorem storeEvaluator (run : CommandCall world Function → Run world (List Value)) :
    StoreEvaluator variableStore (operations run) where
  lookup n σ := ⟨σ.record (.lookup n σ.frame[n]?), rfl, rfl, rfl⟩
  set x v σ hx := by
    refine ⟨{ σ.record (.set x v) with store := σ.store.setIfInBounds x v }, rfl, rfl, ?_, fun y hy => ?_⟩
    · have hlt : x < σ.store.size := by simpa [variableStore] using hx
      show (σ.store.setIfInBounds x v)[x]? = some v
      rw [Array.getElem?_setIfInBounds_self_of_lt hlt]
    · exact Array.getElem?_setIfInBounds_ne (Ne.symm hy)
  define n v σ := by
    have hsame : variableStore.Same σ (σ.record (.define n σ.store.size v)) := ⟨rfl, rfl⟩
    exact ⟨σ.store.size, _, rfl, (assigned_bindNew (σ.record _) n v).of_same hsame⟩

/-- A machine without names. -/
theorem proper_empty : variableStore.Proper {} where
  present n x hn := by simp [variableStore] at hn
  distinct hm _ := by simp [variableStore] at hm

/-- A machine with `a` under the name `x` and `b` under the name `y`. -/
def twoNames : State :=
  (({} : State).bindNew (utf8 "x") (.string (utf8 "a"))).bindNew (utf8 "y") (.string (utf8 "b"))

theorem proper_twoNames : variableStore.Proper twoNames :=
  (assigned_bindNew _ _ _).proper ((assigned_bindNew _ _ _).proper proper_empty)

end Machine

/-! ### The forms -/

/-- The op gives values to names: it is `var` with values, or `set`. -/
inductive Assigning : BindingForm → List Name → ValuesOp F → Pos → ValuesOp F → Prop
  | var {names values pos} : values ≠ .missing → Assigning .var names values pos (.var names values pos)
  | set {names values pos} : Assigning .set names values pos (.set names values pos)

/-- How a form gives each name its value. -/
def giveAll (ev : Evaluator w F) (form : BindingForm) (pos : Pos) (pairs : List (Name × w.Value)) :
    Run w Unit :=
  if form = .var then defineAll ev pairs else assignAll ev pos pairs

section

variable {form : BindingForm} {names : List Name} {values op : ValuesOp F} {pos : Pos}

theorem Assigning.eval_eq (hop : Assigning form names values pos op) (ev : Evaluator w F) :
    op.eval ev = do
      giveAll ev form pos (← matchNames form pos names (← values.eval ev))
      return [] := by
  cases hop with
  | var hvalues => exact eval_var hvalues
  | set => rw [ValuesOp.eval]; rfl

/-- Values that are given to names are counted first. -/
theorem Assigning.outcome_eval (hop : Assigning form names values pos op) {ev : Evaluator w F}
    {σ σ₁ : w.State} {vs : List w.Value} (h : Run.outcome (values.eval ev) σ = (.ok vs, σ₁)) :
    Run.outcome (op.eval ev) σ =
      if vs.length = names.length then Run.outcome (do
        giveAll ev form pos (names.zip vs)
        return []) σ₁
      else (.error ⟨pos, .countMismatch form names.length vs.length⟩, σ₁) := by
  rw [hop.eval_eq]
  unfold matchNames
  by_cases hlength : vs.length = names.length
  · simp only [Run.outcome_bind, h, if_pos hlength]
    rfl
  · simp only [Run.outcome_bind, h, if_neg hlength]
    rfl

theorem Assigning.exists_giveAll (hop : Assigning form names values pos op) {S : VariableStore w}
    {ev : Evaluator w F} (hev : StoreEvaluator S ev) {pairs : List (Name × w.Value)} {σ : w.State}
    (hσ : S.Present σ) (hset : form = .set → ∀ p ∈ pairs, (S.denoted σ p.1).isSome) :
    ∃ σ', Run.outcome (giveAll ev form pos pairs) σ = (.ok (), σ') ∧ S.AssignedAll pairs σ σ' ∧
      (form = .set → S.denoted σ' = S.denoted σ) := by
  cases hop with
  | var _ =>
    obtain ⟨σ', hrun, hall⟩ := exists_defineAll hev pairs σ
    exact ⟨σ', hrun, hall, fun hform => by cases hform⟩
  | set =>
    obtain ⟨σ', hrun, hall, hdenoted⟩ := exists_assignAll hev pos hσ (hset rfl)
    exact ⟨σ', hrun, hall, fun _ => hdenoted⟩

end

/-- **Assignments are simultaneous.** An op that gives values to names runs its values first, from the
state as it finds it, and fails as they fail. If there are not as many values as names, it fails and the
state stays as the values left it. Otherwise it succeeds, given for `set` that the names denote variables
by then, and the names have their values as if they had got them all at once; with `set` the names go on
to denote the variables that they did. -/
theorem assignments_are_simultaneous {S : VariableStore w} {ev : Evaluator w F}
    (hev : StoreEvaluator S ev) {form : BindingForm} {names : List Name} {values : ValuesOp F} {pos : Pos}
    {op : ValuesOp F} (hop : Assigning form names values pos op) (σ : w.State) :
    (∀ e σ₁, Run.outcome (values.eval ev) σ = (.error e, σ₁) →
      Run.outcome (op.eval ev) σ = (.error e, σ₁)) ∧
    ∀ vs σ₁, Run.outcome (values.eval ev) σ = (.ok vs, σ₁) →
      (vs.length ≠ names.length → Run.outcome (op.eval ev) σ =
        (.error ⟨pos, .countMismatch form names.length vs.length⟩, σ₁)) ∧
      (vs.length = names.length → S.Proper σ₁ →
        (form = .set → ∀ n ∈ names, (S.denoted σ₁ n).isSome) →
        ∃ σ', Run.outcome (op.eval ev) σ = (.ok [], σ') ∧ S.Updates (names.zip vs) σ₁ σ' ∧
          (form = .set → S.denoted σ' = S.denoted σ₁)) := by
  refine ⟨fun e σ₁ h => ?_, fun vs σ₁ h => ⟨fun hne => ?_, fun hlength hσ₁ hset => ?_⟩⟩
  · simp only [hop.eval_eq, Run.outcome_bind, h]
  · rw [hop.outcome_eval h, if_neg hne]
  · have hbound : form = .set → ∀ p ∈ names.zip vs, (S.denoted σ₁ p.1).isSome := fun hform p hp =>
      hset hform p.1 (List.of_mem_zip hp).1
    obtain ⟨σ', hrun, hall, hdenoted⟩ := hop.exists_giveAll hev hσ₁.present hbound
    refine ⟨σ', ?_, hall.updates hσ₁, hdenoted⟩
    rw [hop.outcome_eval h, if_pos hlength, Run.outcome_bind, hrun]
    rfl

/-- The values `c $x $y`. -/
def crossedValues : ValuesOp Machine.Function :=
  .spaced [.string (utf8 "c") 0, .variable (utf8 "x") 0, .variable (utf8 "y") 0] 0

theorem exists_outcome_crossedValues :
    ∃ σ₁, Run.outcome (crossedValues.eval Machine.top) Machine.twoNames =
        (.ok [.string (utf8 "c"), .string (utf8 "a"), .string (utf8 "b")], σ₁) ∧
      Machine.variableStore.Same Machine.twoNames σ₁ :=
  ⟨_, rfl, rfl, rfl⟩

/-- After `set x y x = c $x $y` the values of `x` and `y` are swapped, and the `c` is lost. -/
theorem assignments_are_simultaneous_swap :
    ∃ σ₁ σ', Run.outcome (crossedValues.eval Machine.top) Machine.twoNames =
        (.ok [.string (utf8 "c"), .string (utf8 "a"), .string (utf8 "b")], σ₁) ∧
      Run.outcome ((ValuesOp.set [utf8 "x", utf8 "y", utf8 "x"] crossedValues 0).eval Machine.top)
        Machine.twoNames = (.ok [], σ') ∧
      Machine.variableStore.value σ' (utf8 "x") = some (.string (utf8 "b")) ∧
      Machine.variableStore.value σ' (utf8 "y") = some (.string (utf8 "a")) := by
  obtain ⟨σ₁, hvalues, hsame⟩ := exists_outcome_crossedValues
  have hbound : ∀ n ∈ [utf8 "x", utf8 "y", utf8 "x"], (Machine.twoNames.frame[n]?).isSome := by
    decide +kernel
  have hop : Assigning .set [utf8 "x", utf8 "y", utf8 "x"] crossedValues 0
      (.set [utf8 "x", utf8 "y", utf8 "x"] crossedValues 0) := .set
  obtain ⟨-, hsuccess⟩ :=
    assignments_are_simultaneous (Machine.storeEvaluator _) hop Machine.twoNames
  obtain ⟨σ', hrun, hupdates, -⟩ := (hsuccess _ _ hvalues).2 rfl
    (Machine.proper_twoNames.of_same hsame) fun _ => by rwa [hsame.1]
  refine ⟨σ₁, σ', hvalues, hrun, ?_, ?_⟩
  · exact hupdates.last [_, _] rfl (by simp)
  · have hxy : utf8 "x" ≠ utf8 "y" := by decide +kernel
    exact hupdates.last [_] rfl (by simp [hxy])

/-- **A failing `set` has assigned to the names before the missing one.** If there are not as many values
as names, `set` fails and the state stays as the values left it. If there are, and the names denote
variables by then, it succeeds. Otherwise it fails for the first name that denotes none. The names before
it have got their values one after the other by then, which is all at once where different names denote
different variables, and nothing else has changed; so if there is no name before it, nothing has. -/
theorem set_assigns_up_to_missing {S : VariableStore w} {ev : Evaluator w F} (hev : StoreEvaluator S ev)
    (names : List Name) (values : ValuesOp F) (pos : Pos) {σ σ₁ : w.State} {vs : List w.Value}
    (hvalues : Run.outcome (values.eval ev) σ = (.ok vs, σ₁)) :
    (vs.length ≠ names.length → Run.outcome ((ValuesOp.set names values pos).eval ev) σ =
      (.error ⟨pos, .countMismatch .set names.length vs.length⟩, σ₁)) ∧
    (vs.length = names.length → S.Present σ₁ →
      ((∀ n ∈ names, (S.denoted σ₁ n).isSome) ∧
        ∃ σ', Run.outcome ((ValuesOp.set names values pos).eval ev) σ = (.ok [], σ')) ∨
      ∃ front n v rest, names.zip vs = front ++ (n, v) :: rest ∧
        (∀ p ∈ front, (S.denoted σ₁ p.1).isSome) ∧ S.denoted σ₁ n = none ∧
        ∃ τ σ', Run.outcome ((ValuesOp.set names values pos).eval ev) σ =
            (.error ⟨pos, .variableNotFound n⟩, σ') ∧
          S.AssignedAll front σ₁ τ ∧ S.Same τ σ' ∧ S.denoted σ' = S.denoted σ₁ ∧
          (front = [] → S.Same σ₁ σ') ∧ (S.Proper σ₁ → S.Updates front σ₁ σ')) := by
  rw [Assigning.set.outcome_eval hvalues]
  refine ⟨fun hne => if_neg hne, fun hlength hσ₁ => ?_⟩
  have hgive : giveAll ev .set pos (names.zip vs) = assignAll ev pos (names.zip vs) := if_neg (by decide)
  rw [if_pos hlength, Run.outcome_bind, hgive]
  cases hfind : (names.zip vs).find? fun p => (S.denoted σ₁ p.1).isNone with
  | none =>
    have hbound : ∀ p ∈ names.zip vs, (S.denoted σ₁ p.1).isSome := fun p hp => by
      simpa [← Option.isSome_iff_ne_none] using List.find?_eq_none.1 hfind p hp
    obtain ⟨σ', hrun, -, -⟩ := exists_assignAll hev pos hσ₁ hbound
    refine .inl ⟨fun n hn => ?_, σ', ?_⟩
    · rw [← List.map_fst_zip hlength.ge] at hn
      obtain ⟨p, hp, rfl⟩ := List.mem_map.1 hn
      exact hbound p hp
    · rw [hrun]
      rfl
  | some p =>
    obtain ⟨n, v⟩ := p
    obtain ⟨hn, front, rest, hsplit, hfront⟩ := List.find?_eq_some_iff_append.1 hfind
    have hbound : ∀ p ∈ front, (S.denoted σ₁ p.1).isSome := fun p hp => by
      simpa [← Option.isSome_iff_ne_none] using hfront p hp
    have hmissing : S.denoted σ₁ n = none := Option.isNone_iff_eq_none.1 hn
    obtain ⟨τ, hall, hdenoted, hrun⟩ := exists_assignAll_front hev pos front ((n, v) :: rest) hσ₁ hbound
    obtain ⟨σ', hfail, hsame⟩ := exists_assignAll_missing hev pos v (hdenoted ▸ hmissing) rest
    refine .inr ⟨front, n, v, rest, hsplit, hbound, hmissing, τ, σ', ?_, hall, hsame,
      hsame.1.trans hdenoted, ?_, fun hproper => (hall.updates hproper).of_same hsame⟩
    · rw [hsplit, hrun, hfail]
    · rintro rfl
      cases hall
      exact hsame

/-- After `set x z y = c $x $y` fails for want of `z`, `x` has its new value and `y` its old one. -/
theorem set_assigns_up_to_missing_between :
    ∃ σ₁ σ', Run.outcome (crossedValues.eval Machine.top) Machine.twoNames =
        (.ok [.string (utf8 "c"), .string (utf8 "a"), .string (utf8 "b")], σ₁) ∧
      Run.outcome ((ValuesOp.set [utf8 "x", utf8 "z", utf8 "y"] crossedValues 0).eval Machine.top)
        Machine.twoNames = (.error ⟨0, .variableNotFound (utf8 "z")⟩, σ') ∧
      Machine.variableStore.value σ' (utf8 "x") = some (.string (utf8 "c")) ∧
      Machine.variableStore.value σ' (utf8 "y") = some (.string (utf8 "b")) := by
  obtain ⟨σ₁, hvalues, hsame⟩ := exists_outcome_crossedValues
  have hx : Machine.variableStore.denoted σ₁ (utf8 "x") = some (0 : Nat) := by
    rw [hsame.1]
    decide +kernel
  have hy : Machine.variableStore.denoted σ₁ (utf8 "y") = some (1 : Nat) := by
    rw [hsame.1]
    decide +kernel
  have hz : Machine.variableStore.denoted σ₁ (utf8 "z") = none := by
    rw [hsame.1]
    decide +kernel
  have hheld : Machine.variableStore.content σ₁ (1 : Nat) = some (.string (utf8 "b")) := by
    rw [hsame.2]
    rfl
  have hproper := Machine.proper_twoNames.of_same hsame
  obtain ⟨-, hcounted⟩ := set_assigns_up_to_missing (Machine.storeEvaluator _)
    [utf8 "x", utf8 "z", utf8 "y"] crossedValues 0 hvalues
  rcases hcounted rfl hproper.present with ⟨hbound, -⟩ | ⟨front, n, v, rest, hsplit, hfront, hn, hrest⟩
  · simpa [hz] using hbound (utf8 "z") (by simp)
  · obtain ⟨rfl, rfl⟩ : front = [(utf8 "x", .string (utf8 "c"))] ∧ n = utf8 "z" := by
      rcases front with _ | ⟨p, _ | ⟨q, front⟩⟩
      · obtain ⟨rfl, -⟩ := Prod.mk.inj (List.cons.inj hsplit).1
        cases hx.symm.trans hn
      · obtain ⟨rfl, htail⟩ := List.cons.inj hsplit
        exact ⟨rfl, (Prod.mk.inj (List.cons.inj htail).1).1.symm⟩
      · obtain ⟨rfl, -⟩ := List.cons.inj (List.cons.inj hsplit).2
        simpa [hz] using (List.forall_mem_cons.1 (List.forall_mem_cons.1 hfront).2).1
    obtain ⟨τ, σ', hrun, -, -, hdenoted, -, hall⟩ := hrest
    have hupdates := hall hproper
    have hothers : ∀ p ∈ [(utf8 "x", Machine.Value.string (utf8 "c"))],
        Machine.variableStore.denoted σ₁ p.1 ≠ some (1 : Nat) := by simp [hx]
    refine ⟨σ₁, σ', hvalues, hrun, hupdates.last [] rfl (by simp), ?_⟩
    rw [VariableStore.value, hdenoted, hy, Option.bind_some,
      hupdates.untouched _ (by rw [hheld]; rfl) hothers, hheld]

/-- The values `(del y | put c d)`. -/
def vanishingValues : List Primary :=
  [.chanCapture 0 (some ⟨0, [formOf "del" [.string 0 (utf8 "y")],
    formOf "put" [.string 0 (utf8 "c"), .string 0 (utf8 "d")]]⟩)]

/-- The form `set x y = ...` with these values. -/
def settingOf (values : List Primary) : SpecialCall Machine.Function :=
  let targets : List Primary := [.string 0 (utf8 "x"), .string 0 (utf8 "y"), .string 0 (utf8 "=")]
  ⟨⟨[], []⟩, 0, 0, compileArgs coreEnv ((targets ++ values).map fun p => some (wordOf p))⟩

/-- The op is a `set` of `x` and `y` that runs its values and then fails for want of `y`, with another
value in `x` than they have left there. -/
def halfAssigns : ValuesOp Machine.Function → Bool
  | .set names values pos =>
    let ran := Run.outcome (values.eval Machine.top) Machine.twoNames
    let failed := Run.outcome ((ValuesOp.set names values pos).eval Machine.top) Machine.twoNames
    names = [utf8 "x", utf8 "y"] ∧ pos = 0 ∧ ran.1.isOk = true ∧
      failed.1.map (fun _ => ()) = .error ⟨0, .variableNotFound (utf8 "y")⟩ ∧
      (Machine.variableStore.value ran.2 (utf8 "x")).map (·.toText) = some (utf8 "a") ∧
      (Machine.variableStore.value failed.2 (utf8 "x")).map (·.toText) = some (utf8 "c")
  | _ => false

/-- The form `set x y = (del y | put c d)` compiles, since `y` is there when it is named. Once the values
have run it is gone, and the form fails with `c` under the name `x`. -/
theorem set_leaves_half_assigned :
    ∃ values s', (compileSet (settingOf vanishingValues)).Gives
        (.ofRoot {(utf8 "x", .any), (utf8 "y", .any)}) (some (.set [utf8 "x", utf8 "y"] values 0)) s' ∧
      ∃ vs σ₁ σ', Run.outcome (values.eval Machine.top) Machine.twoNames = (.ok vs, σ₁) ∧
        Run.outcome ((ValuesOp.set [utf8 "x", utf8 "y"] values 0).eval Machine.top) Machine.twoNames =
          (.error ⟨0, .variableNotFound (utf8 "y")⟩, σ') ∧
        (Machine.variableStore.value σ₁ (utf8 "x")).map (·.toText) = some (utf8 "a") ∧
        (Machine.variableStore.value σ' (utf8 "x")).map (·.toText) = some (utf8 "c") := by
  obtain ⟨op, s', h, hp⟩ := CompileM.exists_gives_some (x := compileSet (settingOf vanishingValues))
    (s := .ofRoot {(utf8 "x", .any), (utf8 "y", .any)}) halfAssigns (by decide +kernel)
  cases op with
  | set names values pos =>
    obtain ⟨rfl, rfl, hok, hfails, hbefore, hafter⟩ := of_decide_eq_true hp
    rcases hran : Run.outcome (values.eval Machine.top) Machine.twoNames with ⟨e | vs, σ₁⟩
    · rw [hran] at hok
      cases hok
    · rcases hfailed : Run.outcome ((ValuesOp.set [utf8 "x", utf8 "y"] values 0).eval Machine.top)
        Machine.twoNames with ⟨e | _, σ'⟩
      · rw [hran] at hbefore
        rw [hfailed] at hfails hafter
        obtain rfl := Except.error.inj hfails
        exact ⟨values, s', h, vs, σ₁, σ', hran, hfailed, hbefore, hafter⟩
      · rw [hfailed] at hfails
        cases hfails
  | _ => cases hp

end ShellOps
