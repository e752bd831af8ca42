/-
# The grammar of the forms that bind names

A form that binds names reads its words from left to right: names, then for `var` and `set` a word `=`
and values, and for `fn` a closure literal. The words that it takes are given here by what they are
made of (`NameWord`, `EqualsWord`, `LiteralWord`), so that the grammar of a form is a list of such words
and does not mention how the form looks at a word.

What happens with any words is one of three things: the words are in the grammar and the form compiles
(`Accepts`), a word or the form itself is to blame (`Rejects`), or the words are in the grammar but a
value or the closure does not compile (`Breaks`). Each of the three determines the outcome, and one of
them always holds; so the form compiles exactly in the first case.
-/
import ShellOps.Proofs.Building

namespace ShellOps

variable {F : Type} {env : Env F} {s t s' : CompileState}

/-! ### Words -/

/-- A word that is a name: a string on its own, which is not empty and not `=`. -/
structure NameWord where
  pos : Pos
  partPos : Pos
  textPos : Pos
  text : Name
  ne_nil : text ≠ []
  ne_equals : text ≠ equals

/-- A word that is the string `=` on its own. -/
structure EqualsWord where
  pos : Pos
  partPos : Pos
  textPos : Pos

/-- A word that is a closure literal on its own; in a broken tree its closure is missing. -/
structure LiteralWord where
  pos : Pos
  partPos : Pos
  literalPos : Pos
  closure : Option Closure

def NameWord.toWord (x : NameWord) : Word :=
  ⟨x.pos, none, [⟨x.partPos, .string x.textPos x.text, none⟩]⟩

def EqualsWord.toWord (e : EqualsWord) : Word :=
  ⟨e.pos, none, [⟨e.partPos, .string e.textPos equals, none⟩]⟩

def LiteralWord.toWord (b : LiteralWord) : Word :=
  ⟨b.pos, none, [⟨b.partPos, .closure b.literalPos b.closure, none⟩]⟩

/-- The arguments that some words are, none of which is missing. -/
def Env.arguments (env : Env F) (words : List Word) : List (Argument F) :=
  compileArgs env (words.map some)

/-- A use of a special form with the given words. -/
def Env.use (env : Env F) (pos argsPos : Pos) (words : List Word) : SpecialCall F :=
  ⟨env.source, pos, argsPos, env.arguments words⟩

@[simp] theorem Env.arguments_nil (env : Env F) : env.arguments [] = [] := rfl

theorem Env.arguments_cons (env : Env F) (w : Word) (words : List Word) : env.arguments (w :: words) =
    ⟨some w, compileWord env w, compileLiteral? env w⟩ :: env.arguments words := by
  simp only [Env.arguments, List.map_cons, compileArgs, compileArg]

@[simp] theorem NameWord.plain?_toWord (x : NameWord) : x.toWord.plain? = some x.text := rfl

@[simp] theorem EqualsWord.plain?_toWord (e : EqualsWord) : e.toWord.plain? = some equals := rfl

@[simp] theorem EqualsWord.pos_toWord (e : EqualsWord) : e.toWord.pos = e.pos := rfl

theorem Word.sole?_eq_some_iff {w : Word} {head : Primary} :
    w.sole? = some head ↔ ∃ p, w = ⟨w.pos, none, [⟨p, head, none⟩]⟩ := by
  obtain ⟨pos, sigil, parts⟩ := w
  constructor
  · intro h
    unfold Word.sole? at h
    split at h
    · next p left hsigil hparts =>
      obtain rfl : sigil = none := hsigil
      obtain rfl : parts = _ := hparts
      obtain rfl := Option.some.inj h
      exact ⟨p, rfl⟩
    · cases h
  · rintro ⟨p, h⟩
    rw [h]
    rfl

theorem Word.plain?_eq_some_iff {w : Word} {text : Bytes} :
    w.plain? = some text ↔ ∃ q, w.sole? = some (.string q text) := by
  unfold Word.plain?
  constructor
  · intro h
    split at h
    · next q text' hsole =>
      obtain rfl := Option.some.inj h
      exact ⟨q, hsole⟩
    · cases h
  · rintro ⟨q, h⟩
    rw [h]

theorem NameWord.exists_of_plain {w : Word} {n : Name} (h : w.plain? = some n) (hnil : n ≠ [])
    (hequals : n ≠ equals) : ∃ x : NameWord, w = x.toWord := by
  obtain ⟨q, hsole⟩ := Word.plain?_eq_some_iff.1 h
  obtain ⟨p, hw⟩ := Word.sole?_eq_some_iff.1 hsole
  exact ⟨⟨w.pos, p, q, n, hnil, hequals⟩, hw⟩

theorem EqualsWord.exists_of_plain {w : Word} (h : w.plain? = some equals) :
    ∃ e : EqualsWord, w = e.toWord := by
  obtain ⟨q, hsole⟩ := Word.plain?_eq_some_iff.1 h
  obtain ⟨p, hw⟩ := Word.sole?_eq_some_iff.1 hsole
  exact ⟨⟨w.pos, p, q⟩, hw⟩

theorem LiteralWord.exists_of_sole {w : Word} {q : Pos} {closure : Option Closure}
    (h : w.sole? = some (.closure q closure)) : ∃ b : LiteralWord, w = b.toWord := by
  obtain ⟨p, hw⟩ := Word.sole?_eq_some_iff.1 h
  exact ⟨⟨w.pos, p, q, closure⟩, hw⟩

theorem mustName_toWord (f : BindingForm) (x : NameWord) : mustName f x.toWord = pure x.text := by
  unfold mustName
  rw [NameWord.plain?_toWord]
  exact if_neg (not_or.2 ⟨x.ne_nil, x.ne_equals⟩)

theorem mustName_of_ne {w : Word} (f : BindingForm) (h : ∀ x : NameWord, w ≠ x.toWord) :
    mustName f w = CompileM.reject w.pos (.expectedName f) := by
  obtain ⟨n, hplain, hnil, hequals, -⟩ | hreject := mustName_eq f w
  · obtain ⟨x, hx⟩ := NameWord.exists_of_plain hplain hnil hequals
    exact absurd hx (h x)
  · exact hreject

/-- Arguments that are all there compile as words do. -/
theorem compileArguments_arguments (env : Env F) (values : List Word) (pos : Pos) :
    compileArguments (env.arguments values) pos = compileSpaced env (values.map some) pos := by
  have hwords : ∀ values : List Word, (env.arguments values).mapM (·.compile) =
      compileWords env (values.map some) := by
    intro values
    induction values with
    | nil => rfl
    | cons w values ih =>
      rw [Env.arguments_cons, List.mapM_cons, ih, List.map_cons, compileWords]
  unfold compileArguments compileSpaced
  rw [hwords]

theorem gives_compileSpaced {words : List (Option Word)} {ops : List (ValuesOp F)}
    (h : (compileWords env words).Gives s ops t) (pos : Pos) :
    (compileSpaced env words pos).Gives s (.spaced ops pos) t :=
  CompileM.gives_bind.2 ⟨ops, t, h, CompileM.gives_pure.2 ⟨rfl, rfl⟩⟩

/-! ### The grammar -/

namespace BindingForm

/-- What it does to the state that a form takes a name: nothing for `var`, while `set` looks up a name
that is bound and `del` takes a name out of the innermost frame. -/
inductive Takes : BindingForm → CompileState → Name → CompileState → Prop
  | var (s : CompileState) (n : Name) : Takes .var s n s
  | set {s : CompileState} {n : Name} : (s.scopes.type? n).isSome → Takes .set s n (s.looked n)
  | del {s : CompileState} {n : Name} : n ∈ s.scopes.innermost →
    Takes .del s n { s with scopes := s.scopes.unbind n }

/-- Why a form does not take a word where it reads names. -/
inductive Refuses : BindingForm → CompileState → Word → Rejection → Prop
  | word {f : BindingForm} {s : CompileState} {w : Word} : (∀ x : NameWord, w ≠ x.toWord) →
    (f ≠ .del → ∀ e : EqualsWord, w ≠ e.toWord) → Refuses f s w (.expectedName f)
  | unbound {s : CompileState} {x : NameWord} : s.scopes.type? x.text = none →
    Refuses .set s x.toWord (.undefinedVariable x.text)
  | notLocal {s : CompileState} {x : NameWord} : x.text ∉ s.scopes.innermost →
    Refuses .del s x.toWord (.notLocal x.text)

/-- The words are in the grammar of the form at `pos` and what they hold compiles: the op of the form,
and the state it leaves. -/
inductive Accepts (env : Env F) (pos : Pos) :
    BindingForm → List Word → CompileState → ValuesOp F → CompileState → Prop
  | declare {s : CompileState} (names : List NameWord) : names ≠ [] →
    Accepts env pos .var (names.map NameWord.toWord) s (.var (names.map NameWord.text) .missing pos)
      (s.bound (names.map NameWord.text))
  | var {s t : CompileState} {ops : List (ValuesOp F)} (names : List NameWord) (e : EqualsWord)
      (values : List Word) : names ≠ [] → (compileWords env (values.map some)).Gives s ops t →
    Accepts env pos .var (names.map NameWord.toWord ++ e.toWord :: values) s
      (.var (names.map NameWord.text) (.spaced ops e.pos) pos) (t.bound (names.map NameWord.text))
  | set {s t : CompileState} {ops : List (ValuesOp F)} (names : List NameWord) (e : EqualsWord)
      (values : List Word) : names ≠ [] → (∀ x ∈ names, (s.scopes.type? x.text).isSome) →
    (compileWords env (values.map some)).Gives ((names.map NameWord.text).foldl (·.looked ·) s) ops t →
    Accepts env pos .set (names.map NameWord.toWord ++ e.toWord :: values) s
      (.set (names.map NameWord.text) (.spaced ops e.pos) pos) t
  | del {s : CompileState} (names : List NameWord) : names ≠ [] → (names.map NameWord.text).Nodup →
    (∀ x ∈ names, x.text ∈ s.scopes.innermost) →
    Accepts env pos .del (names.map NameWord.toWord) s (.del (names.map NameWord.text) pos)
      { s with scopes := (names.map NameWord.text).foldl (·.unbind ·) s.scopes }
  | fn {s s' : CompileState} {op : ValuesOp F} {c : Closure} (x : NameWord) (b : LiteralWord) :
    b.closure = some c → (forwarding (compileClosure env c)).Gives
      { s with scopes := s.scopes.bind (functionName x.text) .closure } op s' →
    Accepts env pos .fn [x.toWord, b.toWord] s (.fn x.text op pos) s'

/-- What a form at `pos` blames, and where: the first word that it does not take, or itself if there are
no names, no `=` or not two words. -/
inductive Rejects (pos : Pos) : BindingForm → List Word → CompileState → Pos → Rejection → Prop
  | word {f : BindingForm} {s t : CompileState} {w : Word} {cause : Rejection} (names : List NameWord)
      (rest : List Word) : f ≠ .fn → Chain f.Takes s (names.map NameWord.text) t → f.Refuses t w cause →
    Rejects pos f (names.map NameWord.toWord ++ w :: rest) s w.pos cause
  | noWords {f : BindingForm} {s : CompileState} : f ≠ .fn → Rejects pos f [] s pos (.noNames f)
  | noNames {f : BindingForm} {s : CompileState} (e : EqualsWord) (values : List Word) :
    f = .var ∨ f = .set → Rejects pos f (e.toWord :: values) s pos (.noNames f)
  | noEquals {s t : CompileState} (names : List NameWord) : names ≠ [] →
    Chain (Takes .set) s (names.map NameWord.text) t →
    Rejects pos .set (names.map NameWord.toWord) s pos .missingEquals
  | wordCount {s : CompileState} {words : List Word} : words.length ≠ 2 →
    Rejects pos .fn words s pos .badFunction
  | functionName {s : CompileState} {w b : Word} : (∀ x : NameWord, w ≠ x.toWord) →
    Rejects pos .fn [w, b] s w.pos (.expectedName .fn)
  | functionBody {s : CompileState} {b : Word} (x : NameWord) : (∀ l : LiteralWord, b ≠ l.toWord) →
    Rejects pos .fn [x.toWord, b] s b.pos .badFunctionBody

/-- The words are in the grammar of the form, but what they hold does not compile: the failure of the
values or of the closure, and the state it leaves. -/
inductive Breaks (env : Env F) :
    BindingForm → List Word → CompileState → Failure → CompileState → Prop
  | values {f : BindingForm} {s t s' : CompileState} {failure : Failure} (names : List NameWord)
      (e : EqualsWord) (values : List Word) : f = .var ∨ f = .set → names ≠ [] →
    Chain f.Takes s (names.map NameWord.text) t →
    (compileWords env (values.map some)).outcome t = (.error failure, s') →
    Breaks env f (names.map NameWord.toWord ++ e.toWord :: values) s failure s'
  | closure {s s' : CompileState} {failure : Failure} {c : Closure} (x : NameWord) (b : LiteralWord) :
    b.closure = some c → (forwarding (compileClosure env c)).outcome
      { s with scopes := s.scopes.bind (functionName x.text) .closure } = (.error failure, s') →
    Breaks env .fn [x.toWord, b.toWord] s failure s'
  | missing {s : CompileState} (x : NameWord) (b : LiteralWord) : b.closure = none →
    Breaks env .fn [x.toWord, b.toWord] s (.malformed .missingClosure) s

/-! ### Reading names -/

theorem chain_var {names : List Name} : Chain (Takes .var) s names t ↔ t = s := by
  constructor
  · intro h
    induction h with
    | nil => rfl
    | cons hn _ ih =>
      cases hn
      exact ih
  · rintro rfl
    induction names with
    | nil => exact .nil
    | cons n names ih => exact .cons (.var _ n) ih

theorem chain_set {names : List Name} : ∀ {s : CompileState}, Chain (Takes .set) s names t ↔
    (∀ n ∈ names, (s.scopes.type? n).isSome) ∧ t = names.foldl (·.looked ·) s := by
  induction names with
  | nil =>
    intro s
    constructor
    · rintro ⟨⟩
      exact ⟨List.forall_mem_nil _, rfl⟩
    · rintro ⟨-, rfl⟩
      exact .nil
  | cons n names ih =>
    intro s
    rw [List.forall_mem_cons, List.foldl_cons]
    constructor
    · rintro (_ | ⟨hn, hnames⟩)
      cases hn with
      | set hbound =>
        obtain ⟨hall, ht⟩ := ih.1 hnames
        exact ⟨⟨hbound, hall⟩, ht⟩
    · rintro ⟨⟨hbound, hall⟩, ht⟩
      exact .cons (.set hbound) (ih.2 ⟨hall, ht⟩)

theorem chain_del {names : List Name} : ∀ {s : CompileState}, Chain (Takes .del) s names t ↔
    names.Nodup ∧ (∀ n ∈ names, n ∈ s.scopes.innermost) ∧
      t = { s with scopes := names.foldl (·.unbind ·) s.scopes } := by
  induction names with
  | nil =>
    intro s
    constructor
    · rintro ⟨⟩
      exact ⟨List.nodup_nil, List.forall_mem_nil _, rfl⟩
    · rintro ⟨-, -, rfl⟩
      exact .nil
  | cons n names ih =>
    intro s
    have herase : ∀ m, m ∈ (s.scopes.unbind n).innermost ↔ n ≠ m ∧ m ∈ s.scopes.innermost := by
      intro m
      rw [ScopeStack.unbind, Std.ExtTreeMap.mem_erase, ne_eq, Std.LawfulEqCmp.compare_eq_iff_eq]
    rw [List.forall_mem_cons, List.foldl_cons, List.nodup_cons]
    constructor
    · rintro (_ | ⟨hn, hnames⟩)
      cases hn with
      | del hlocal =>
        obtain ⟨hnodup, hall, ht⟩ := ih.1 hnames
        refine ⟨⟨fun hmem => ?_, hnodup⟩, ⟨hlocal, fun m hm => ((herase m).1 (hall m hm)).2⟩, ht⟩
        exact ((herase n).1 (hall n hmem)).1 rfl
    · rintro ⟨⟨hfresh, hnodup⟩, ⟨hlocal, hall⟩, ht⟩
      refine .cons (.del hlocal) (ih.2 ⟨hnodup, fun m hm => (herase m).2 ⟨?_, hall m hm⟩, ht⟩)
      rintro rfl
      exact hfresh hm

/-- A name is taken or refused. -/
theorem takes_or_refuses {f : BindingForm} (hf : f ≠ .fn) (s : CompileState) (x : NameWord) :
    (∃ t, f.Takes s x.text t) ∨ ∃ cause, f.Refuses s x.toWord cause := by
  cases f with
  | var => exact .inl ⟨s, .var s _⟩
  | set =>
    cases hx : s.scopes.type? x.text with
    | none => exact .inr ⟨_, .unbound hx⟩
    | some u => exact .inl ⟨_, .set (by rw [hx]; rfl)⟩
  | del =>
    by_cases hx : x.text ∈ s.scopes.innermost
    · exact .inl ⟨_, .del hx⟩
    · exact .inr ⟨_, .notLocal hx⟩
  | fn => exact absurd rfl hf

/-- **Names come first.** A form takes names until the words end, a word `=` comes that ends the names,
or it refuses a word. -/
theorem exists_names {f : BindingForm} (hf : f ≠ .fn) : ∀ (words : List Word) (s : CompileState),
    ∃ (names : List NameWord) (rest : List Word) (t : CompileState),
      words = names.map NameWord.toWord ++ rest ∧ Chain f.Takes s (names.map NameWord.text) t ∧
      (rest = [] ∨ (f ≠ .del ∧ ∃ (e : EqualsWord) (values : List Word), rest = e.toWord :: values) ∨
        ∃ w rest' cause, rest = w :: rest' ∧ f.Refuses t w cause)
  | [], s => ⟨[], [], s, rfl, .nil, .inl rfl⟩
  | w :: words, s => by
    by_cases hname : ∃ x : NameWord, w = x.toWord
    · obtain ⟨x, rfl⟩ := hname
      rcases takes_or_refuses hf s x with ⟨t, ht⟩ | ⟨cause, hcause⟩
      · obtain ⟨names, rest, u, rfl, hchain, hrest⟩ := exists_names hf words t
        exact ⟨x :: names, rest, u, rfl, .cons ht hchain, hrest⟩
      · exact ⟨[], x.toWord :: words, s, rfl, .nil, .inr (.inr ⟨_, words, cause, rfl, hcause⟩)⟩
    · have hname : ∀ x : NameWord, w ≠ x.toWord := fun x hx => hname ⟨x, hx⟩
      refine ⟨[], w :: words, s, rfl, .nil, .inr ?_⟩
      by_cases hends : f ≠ .del ∧ ∃ e : EqualsWord, w = e.toWord
      · obtain ⟨hdel, e, rfl⟩ := hends
        exact .inl ⟨hdel, e, words, rfl⟩
      · exact .inr ⟨w, words, _, rfl, .word hname fun hdel e he => hends ⟨hdel, e, he⟩⟩

/-! ### Outcomes -/

section

variable {f : BindingForm} {check : Name → Pos → CompileM Unit} {names : List NameWord}
variable (hcheck : ∀ {s n t} (pos : Pos), f.Takes s n t → (check n pos).Gives s () t)
include hcheck

/-- The names that a form takes are read one by one, and the scan goes on with the words after them. -/
theorem outcome_scanNames (env : Env F) (rest : List Word) :
    ∀ {names : List NameWord} {s : CompileState}, Chain f.Takes s (names.map NameWord.text) t →
      (scanNames f check (env.arguments (names.map NameWord.toWord ++ rest))).outcome s =
        (do
          let (more, values) ← scanNames f check (env.arguments rest)
          return (names.map NameWord.text ++ more, values)).outcome t
  | [], s, h => by
    cases h
    simp
  | x :: names, s, .cons hx hnames => by
    have ih := outcome_scanNames env rest hnames
    have hne : x.toWord.plain? ≠ some equals := fun heq => x.ne_equals (Option.some.inj heq)
    simp only [List.map_cons, List.cons_append, Env.arguments_cons, scanNames, Argument.must, pure_bind,
      if_neg hne, mustName_toWord]
    rw [(hcheck _ hx).outcome_bind, CompileM.outcome_bind, ih, ← CompileM.outcome_bind]
    simp

theorem scanNames_gives_end (env : Env F) (h : Chain f.Takes s (names.map NameWord.text) t) :
    (scanNames f check (env.arguments (names.map NameWord.toWord))).Gives s
      (names.map NameWord.text, none) t := by
  have hscan := outcome_scanNames hcheck env [] h
  rw [List.append_nil] at hscan
  rw [CompileM.Gives, hscan]
  simp [scanNames]

theorem scanNames_gives_equals (env : Env F) (h : Chain f.Takes s (names.map NameWord.text) t)
    (e : EqualsWord) (values : List Word) :
    (scanNames f check (env.arguments (names.map NameWord.toWord ++ e.toWord :: values))).Gives s
      (names.map NameWord.text, some (e.pos, env.arguments values)) t := by
  rw [CompileM.Gives, outcome_scanNames hcheck env _ h, Env.arguments_cons]
  simp [scanNames, Argument.must]

/-- The first word that is refused ends the scan. -/
theorem outcome_scanNames_of_refuses (env : Env F) (h : Chain f.Takes s (names.map NameWord.text) t)
    (hdel : f ≠ .del) (hrefuse : ∀ {s cause} (x : NameWord), f.Refuses s x.toWord cause →
      (check x.text x.pos).outcome s = (.error (.rejected x.pos cause), s))
    {w : Word} {cause : Rejection} (hw : f.Refuses t w cause) (rest : List Word) :
    (scanNames f check (env.arguments (names.map NameWord.toWord ++ w :: rest))).outcome s =
      (.error (.rejected w.pos cause), t) := by
  have hstop : (scanNames f check (env.arguments (w :: rest))).outcome t =
      (.error (.rejected w.pos cause), t) := by
    simp only [Env.arguments_cons, scanNames, Argument.must, pure_bind]
    by_cases hname : ∃ x : NameWord, w = x.toWord
    · obtain ⟨x, rfl⟩ := hname
      have hne : x.toWord.plain? ≠ some equals := fun heq => x.ne_equals (Option.some.inj heq)
      have hx : (check x.text x.toWord.pos).outcome t = (.error (.rejected x.toWord.pos cause), t) :=
        hrefuse x hw
      rw [if_neg hne, mustName_toWord, pure_bind, CompileM.outcome_bind, hx]
    · cases hw with
      | word hnone hends =>
        have hne : w.plain? ≠ some equals := by
          intro heq
          obtain ⟨e, he⟩ := EqualsWord.exists_of_plain heq
          exact hends hdel e he
        rw [if_neg hne, mustName_of_ne f hnone]
        rfl
      | @unbound s x _ => exact absurd ⟨x, rfl⟩ hname
      | @notLocal s x _ => exact absurd ⟨x, rfl⟩ hname
  rw [outcome_scanNames hcheck env _ h, CompileM.outcome_bind, hstop]

end

/-- What `var` does with a name that it takes. -/
theorem takes_var_gives {n : Name} (_pos : Pos) (h : Takes .var s n t) :
    (pure () : CompileM Unit).Gives s () t := by
  cases h
  rfl

/-- The form `var` refuses no name. -/
theorem outcome_of_refuses_var {cause : Rejection} (x : NameWord) (h : Refuses .var s x.toWord cause) :
    (pure () : CompileM Unit).outcome s = (.error (.rejected x.pos cause), s) := by
  generalize hw : x.toWord = w at h
  cases h with
  | word hnone _ => exact absurd hw.symm (hnone x)

/-- What `set` does with a name that it takes. -/
theorem takes_set_gives {n : Name} (pos : Pos) (h : Takes .set s n t) :
    (discard (CompileM.mustResolve n pos)).Gives s () t := by
  cases h with
  | set hbound =>
    obtain ⟨u, hu⟩ := Option.isSome_iff_exists.1 hbound
    have hresolve : (CompileM.resolve n).Gives s (some u) (s.looked n) := by
      rw [CompileM.gives_resolve, ScopeStack.resolve_fst]
      exact ⟨hu.symm, rfl⟩
    rw [CompileM.discard_eq]
    exact CompileM.gives_bind.2
      ⟨u, _, CompileM.gives_mustResolve.2 hresolve, CompileM.gives_pure.2 ⟨rfl, rfl⟩⟩

/-- What `set` does with a name that it refuses. -/
theorem outcome_of_refuses_set {cause : Rejection} (x : NameWord) (h : Refuses .set s x.toWord cause) :
    (discard (CompileM.mustResolve x.text x.pos)).outcome s = (.error (.rejected x.pos cause), s) := by
  generalize hw : x.toWord = w at h
  cases h with
  | word hnone _ => exact absurd hw.symm (hnone x)
  | @unbound _ y hy =>
    have htext : x.text = y.text := Option.some.inj (congrArg Word.plain? hw)
    rw [← htext] at hy ⊢
    rw [ScopeStack.type?_eq, Option.or_eq_none_iff] at hy
    have hresolve : s.scopes.resolve x.text s.captures = (none, s.captures) :=
      s.scopes.resolve_of_unbound s.captures hy.1 hy.2
    simp only [CompileM.discard_eq, CompileM.mustResolve, CompileM.outcome_bind, CompileM.outcome_resolve,
      hresolve]
    rfl

/-- The names that `del` takes are taken out one by one, and it goes on with the words after them. -/
theorem outcome_unbindNames (env : Env F) (rest : List Word) :
    ∀ {names : List NameWord} {s : CompileState}, Chain (Takes .del) s (names.map NameWord.text) t →
      (unbindNames (env.arguments (names.map NameWord.toWord ++ rest))).outcome s =
        (do
          let more ← unbindNames (env.arguments rest)
          return names.map NameWord.text ++ more).outcome t
  | [], s, h => by
    cases h
    simp
  | x :: names, s, .cons hx hnames => by
    have ih := outcome_unbindNames env rest hnames
    cases hx with
    | del hlocal =>
      have hlocal : (CompileM.hasLocal x.text).Gives s true s :=
        CompileM.gives_hasLocal.2 ⟨(Std.ExtTreeMap.contains_iff_mem.2 hlocal).symm, rfl⟩
      simp only [List.map_cons, List.cons_append, Env.arguments_cons, unbindNames, Argument.must,
        pure_bind, mustName_toWord]
      rw [hlocal.outcome_bind]
      simp only [Bool.not_true, Bool.false_eq_true, if_false]
      have hunbind : (CompileM.unbind x.text).Gives s () { s with scopes := s.scopes.unbind x.text } :=
        CompileM.gives_unbind.2 rfl
      rw [hunbind.outcome_bind, CompileM.outcome_bind, ih, ← CompileM.outcome_bind]
      simp

theorem unbindNames_gives (env : Env F) {names : List NameWord}
    (h : Chain (Takes .del) s (names.map NameWord.text) t) :
    (unbindNames (env.arguments (names.map NameWord.toWord))).Gives s (names.map NameWord.text) t := by
  have hunbind := outcome_unbindNames env [] h
  rw [List.append_nil] at hunbind
  rw [CompileM.Gives, hunbind]
  simp [unbindNames]

/-- The first word that is refused ends `del`. -/
theorem outcome_unbindNames_of_refuses (env : Env F) {names : List NameWord}
    (h : Chain (Takes .del) s (names.map NameWord.text) t) {w : Word} {cause : Rejection}
    (hw : Refuses .del t w cause) (rest : List Word) :
    (unbindNames (env.arguments (names.map NameWord.toWord ++ w :: rest))).outcome s =
      (.error (.rejected w.pos cause), t) := by
  have hstop : (unbindNames (env.arguments (w :: rest))).outcome t =
      (.error (.rejected w.pos cause), t) := by
    simp only [Env.arguments_cons, unbindNames, Argument.must, pure_bind]
    cases hw with
    | word hnone _ =>
      rw [mustName_of_ne .del hnone]
      rfl
    | @notLocal _ x hx =>
      have hlocal : (CompileM.hasLocal x.text).Gives t false t :=
        CompileM.gives_hasLocal.2 ⟨(eq_false_of_ne_true hx).symm, rfl⟩
      rw [mustName_toWord, pure_bind, hlocal.outcome_bind]
      rfl
  rw [outcome_unbindNames env _ h, CompileM.outcome_bind, hstop]

/-- The form `fn` with two words. -/
theorem compileFn_pair (env : Env F) (pos argsPos : Pos) (w b : Word) :
    compileFn (env.use pos argsPos [w, b]) = (do
      let name ← mustName .fn w
      match b.sole?, compileLiteral? env b with
      | some (.closure ..), some step =>
        CompileM.bind (functionName name) .closure
        return some (.fn name (← forwarding step) pos)
      | some (.closure ..), none => CompileM.malformed .missingClosure
      | _, _ => CompileM.reject b.pos .badFunctionBody) := rfl

theorem isEmpty_texts {names : List NameWord} (h : names ≠ []) :
    (names.map NameWord.text).isEmpty = false := by
  cases names with
  | nil => exact absurd rfl h
  | cons x names => rfl

/-- **What is in the grammar compiles**, to the op of the words. -/
theorem outcome_of_accepts {f : BindingForm} {pos : Pos} {words : List Word} {op : ValuesOp F}
    (h : f.Accepts env pos words s op s') (argsPos : Pos) :
    (f.compile (env.use pos argsPos words)).Gives s (some op) s' := by
  cases h with
  | declare names hne =>
    have hnames : Chain (Takes .var) s (names.map NameWord.text) s := chain_var.2 rfl
    refine CompileM.gives_bind.2 ⟨_, _, scanNames_gives_end takes_var_gives env hnames, ?_⟩
    simp only [isEmpty_texts hne, Bool.false_eq_true, if_false, pure_bind]
    exact CompileM.gives_bind.2 ⟨(), _, gives_forM_bind.2 rfl, CompileM.gives_pure.2 ⟨rfl, rfl⟩⟩
  | @var _ t ops names e values hne hvalues =>
    have hnames : Chain (Takes .var) s (names.map NameWord.text) s := chain_var.2 rfl
    refine CompileM.gives_bind.2 ⟨_, _, scanNames_gives_equals takes_var_gives env hnames e values, ?_⟩
    simp only [isEmpty_texts hne, Bool.false_eq_true, if_false, compileArguments_arguments]
    refine CompileM.gives_bind.2 ⟨_, t, gives_compileSpaced hvalues e.pos, ?_⟩
    exact CompileM.gives_bind.2 ⟨(), _, gives_forM_bind.2 rfl, CompileM.gives_pure.2 ⟨rfl, rfl⟩⟩
  | @set _ _ ops names e values hne hbound hvalues =>
    have hnames : Chain (Takes .set) s (names.map NameWord.text) _ :=
      chain_set.2 ⟨List.forall_mem_map.2 hbound, rfl⟩
    refine CompileM.gives_bind.2 ⟨_, _, scanNames_gives_equals takes_set_gives env hnames e values, ?_⟩
    simp only [isEmpty_texts hne, Bool.false_eq_true, if_false, compileArguments_arguments]
    refine CompileM.gives_bind.2 ⟨_, _, gives_compileSpaced hvalues e.pos, ?_⟩
    exact CompileM.gives_pure.2 ⟨rfl, rfl⟩
  | del names hne hnodup hlocal =>
    have hnames : Chain (Takes .del) s (names.map NameWord.text) _ :=
      chain_del.2 ⟨hnodup, List.forall_mem_map.2 hlocal, rfl⟩
    refine CompileM.gives_bind.2 ⟨_, _, unbindNames_gives env hnames, ?_⟩
    simp only [isEmpty_texts hne, Bool.false_eq_true, if_false]
    exact CompileM.gives_pure.2 ⟨rfl, rfl⟩
  | @fn _ _ op c x b hc hclosure =>
    obtain ⟨bodyPos, partPos, literalPos, closure⟩ := b
    obtain rfl : closure = some c := hc
    simp only [compile, compileFn_pair, mustName_toWord, pure_bind]
    refine CompileM.gives_bind.2 ⟨(), _, CompileM.gives_bindName.2 rfl, ?_⟩
    exact CompileM.gives_bind.2 ⟨op, _, hclosure, CompileM.gives_pure.2 ⟨rfl, rfl⟩⟩

/-- **What is rejected fails there.** -/
theorem outcome_of_rejects {f : BindingForm} {pos place : Pos} {words : List Word} {cause : Rejection}
    (h : f.Rejects pos words s place cause) (env : Env F) (argsPos : Pos) :
    ∃ s', (f.compile (env.use pos argsPos words)).outcome s = (.error (.rejected place cause), s') := by
  cases h with
  | @word _ _ t w _ names rest hf hnames hw =>
    cases f with
    | var =>
      have hscan := outcome_scanNames_of_refuses takes_var_gives env hnames (by decide)
        outcome_of_refuses_var hw rest
      exact ⟨t, by rw [compile, compileVar, Env.use, CompileM.outcome_bind, hscan]⟩
    | set =>
      have hscan := outcome_scanNames_of_refuses takes_set_gives env hnames (by decide)
        outcome_of_refuses_set hw rest
      exact ⟨t, by rw [compile, compileSet, Env.use, CompileM.outcome_bind, hscan]⟩
    | del =>
      have hscan := outcome_unbindNames_of_refuses env hnames hw rest
      exact ⟨t, by rw [compile, compileDel, Env.use, CompileM.outcome_bind, hscan]⟩
    | fn => exact absurd rfl hf
  | noWords hf =>
    cases f with
    | fn => exact absurd rfl hf
    | _ => exact ⟨s, rfl⟩
  | noNames e values hf =>
    rcases hf with rfl | rfl
    · have hnone : Chain (Takes .var) s (([] : List NameWord).map NameWord.text) s := .nil
      have hscan := scanNames_gives_equals takes_var_gives env hnone e values
      exact ⟨s, hscan.outcome_bind⟩
    · have hnone : Chain (Takes .set) s (([] : List NameWord).map NameWord.text) s := .nil
      have hscan := scanNames_gives_equals takes_set_gives env hnone e values
      exact ⟨s, hscan.outcome_bind⟩
  | @noEquals _ t names hne hnames =>
    have hscan := scanNames_gives_end takes_set_gives env hnames
    refine ⟨t, ?_⟩
    rw [compile, compileSet, Env.use, hscan.outcome_bind]
    simp only [isEmpty_texts hne, Bool.false_eq_true, if_false]
    rfl
  | wordCount hcount =>
    rcases words with _ | ⟨_, _ | ⟨_, _ | ⟨_, _⟩⟩⟩
    · exact ⟨s, rfl⟩
    · exact ⟨s, rfl⟩
    · exact absurd rfl hcount
    · exact ⟨s, rfl⟩
  | @functionName _ w b hw =>
    refine ⟨s, ?_⟩
    rw [compile, compileFn_pair, mustName_of_ne .fn hw]
    rfl
  | @functionBody _ b x hb =>
    refine ⟨s, ?_⟩
    rw [compile, compileFn_pair, mustName_toWord, pure_bind]
    cases hsole : b.sole? with
    | none => rfl
    | some head =>
      cases head with
      | closure q literal =>
        obtain ⟨l, hl⟩ := LiteralWord.exists_of_sole hsole
        exact absurd hl (hb l)
      | _ => rfl

/-- **What does not compile inside the form makes it fail.** -/
theorem outcome_of_breaks {f : BindingForm} {words : List Word} {failure : Failure}
    (h : f.Breaks env words s failure s') (pos argsPos : Pos) :
    (f.compile (env.use pos argsPos words)).outcome s = (.error failure, s') := by
  cases h with
  | @values _ _ t _ _ names e values hf hne hnames hvalues =>
    have hspaced : (compileSpaced env (values.map some) e.pos).outcome t = (.error failure, s') := by
      rw [compileSpaced, CompileM.outcome_bind, hvalues]
    rcases hf with rfl | rfl
    · have hscan := scanNames_gives_equals takes_var_gives env hnames e values
      rw [compile, compileVar, Env.use, hscan.outcome_bind]
      simp only [isEmpty_texts hne, Bool.false_eq_true, if_false, compileArguments_arguments]
      rw [CompileM.outcome_bind, hspaced]
    · have hscan := scanNames_gives_equals takes_set_gives env hnames e values
      rw [compile, compileSet, Env.use, hscan.outcome_bind]
      simp only [isEmpty_texts hne, Bool.false_eq_true, if_false, compileArguments_arguments]
      rw [CompileM.outcome_bind, hspaced]
  | @closure _ _ _ c x b hc hclosure =>
    obtain ⟨bodyPos, partPos, literalPos, closure⟩ := b
    obtain rfl : closure = some c := hc
    have hbind : (CompileM.bind (ShellOps.functionName x.text) .closure).Gives s ()
        { s with scopes := s.scopes.bind (ShellOps.functionName x.text) .closure } :=
      CompileM.gives_bindName.2 rfl
    simp only [compile, compileFn_pair, mustName_toWord, pure_bind]
    change (CompileM.bind _ _ >>= fun _ => _).outcome s = _
    rw [hbind.outcome_bind, CompileM.outcome_bind, hclosure]
  | missing x b hb =>
    obtain ⟨bodyPos, partPos, literalPos, closure⟩ := b
    obtain rfl : closure = none := hb
    rw [compile, compileFn_pair, mustName_toWord, pure_bind]
    rfl

/-! ### Every use of a form -/

theorem answered_fn (env : Env F) (pos : Pos) (w b : Word) (s : CompileState) :
    (∃ op s', Accepts env pos .fn [w, b] s op s') ∨ (∃ place cause, Rejects pos .fn [w, b] s place cause) ∨
      ∃ failure s', Breaks env .fn [w, b] s failure s' := by
  by_cases hw : ∃ x : NameWord, w = x.toWord
  · obtain ⟨x, rfl⟩ := hw
    by_cases hb : ∃ l : LiteralWord, b = l.toWord
    · obtain ⟨l, rfl⟩ := hb
      cases hl : l.closure with
      | none => exact .inr (.inr ⟨_, s, .missing x l hl⟩)
      | some c =>
        rcases hc : (forwarding (compileClosure env c)).outcome
          { s with scopes := s.scopes.bind (ShellOps.functionName x.text) .closure } with ⟨failure | op, s'⟩
        · exact .inr (.inr ⟨failure, s', .closure x l hl hc⟩)
        · exact .inl ⟨_, s', .fn x l hl hc⟩
    · exact .inr (.inl ⟨b.pos, _, .functionBody x fun l hl => hb ⟨l, hl⟩⟩)
  · exact .inr (.inl ⟨w.pos, _, .functionName fun x hx => hw ⟨x, hx⟩⟩)

/-- One of three things happens with any words. -/
theorem answered (env : Env F) (pos : Pos) (f : BindingForm) (words : List Word) (s : CompileState) :
    (∃ op s', f.Accepts env pos words s op s') ∨ (∃ place cause, f.Rejects pos words s place cause) ∨
      ∃ failure s', f.Breaks env words s failure s' := by
  by_cases hf : f = .fn
  · subst hf
    by_cases hcount : words.length = 2
    · obtain ⟨w, b, rfl⟩ := List.length_eq_two.1 hcount
      exact answered_fn env pos w b s
    · exact .inr (.inl ⟨pos, _, .wordCount hcount⟩)
  · obtain ⟨names, rest, t, rfl, hnames, hrest⟩ := exists_names hf words s
    rcases hrest with rfl | ⟨hdel, e, values, rfl⟩ | ⟨w, rest, cause, rfl, hw⟩
    · rw [List.append_nil]
      by_cases hne : names = []
      · subst hne
        exact .inr (.inl ⟨pos, _, .noWords hf⟩)
      · cases f with
        | var => exact .inl ⟨_, _, .declare names hne⟩
        | set => exact .inr (.inl ⟨pos, _, .noEquals names hne hnames⟩)
        | del =>
          obtain ⟨hnodup, hlocal, -⟩ := chain_del.1 hnames
          exact .inl ⟨_, _, .del names hne hnodup (List.forall_mem_map.1 hlocal)⟩
        | fn => exact absurd rfl hf
    · have hf : f = .var ∨ f = .set := by
        cases f with
        | var => exact .inl rfl
        | set => exact .inr rfl
        | del => exact absurd rfl hdel
        | fn => exact absurd rfl hf
      by_cases hne : names = []
      · subst hne
        exact .inr (.inl ⟨pos, _, .noNames e values hf⟩)
      · rcases hvalues : (compileWords env (values.map some)).outcome t with ⟨failure | ops, u⟩
        · exact .inr (.inr ⟨failure, u, .values names e values hf hne hnames hvalues⟩)
        · rcases hf with rfl | rfl
          · obtain rfl := chain_var.1 hnames
            exact .inl ⟨_, _, .var names e values hne hvalues⟩
          · obtain ⟨hbound, rfl⟩ := chain_set.1 hnames
            exact .inl ⟨_, _, .set names e values hne (List.forall_mem_map.1 hbound) hvalues⟩
    · exact .inr (.inl ⟨w.pos, cause, .word names rest hf hnames hw⟩)

end BindingForm

/-! ### What a form leaves behind -/

/-- A closure literal that compiles leaves the frames as they were. -/
theorem Env.Orderly.scopes_after_closure (h : env.Orderly) {c : Closure} {op : ValuesOp F}
    (hc : (forwarding (compileClosure env c)).Gives s op s') : s'.scopes = s.scopes := by
  obtain ⟨pos, params, ⟨chunkPos, pipelines⟩⟩ := c
  obtain ⟨compiled, t, hcompiled, -, rfl⟩ := gives_forwarding.1 hc
  exact ((h.keepsCoherent pipelines).state_after_closure hcompiled).1

theorem getElem?_foldl_bind (m : Name) : ∀ (names : List Name) (s : ScopeStack),
    (names.foldl (·.bind · .any) s).innermost[m]? = if m ∈ names then some .any else s.innermost[m]?
  | [], s => by simp
  | n :: names, s => by
    rw [List.foldl_cons, getElem?_foldl_bind m names, ScopeStack.bind, Std.ExtTreeMap.getElem?_insert]
    by_cases hn : n = m
    · subst hn
      simp
    · simp [hn, Ne.symm hn]

theorem getElem?_foldl_unbind (m : Name) : ∀ (names : List Name) (s : ScopeStack),
    (names.foldl (·.unbind ·) s).innermost[m]? = if m ∈ names then none else s.innermost[m]?
  | [], s => by simp
  | n :: names, s => by
    rw [List.foldl_cons, getElem?_foldl_unbind m names, ScopeStack.unbind, Std.ExtTreeMap.getElem?_erase]
    by_cases hn : n = m
    · subst hn
      simp
    · simp [hn, Ne.symm hn]

theorem outer_foldl_unbind : ∀ (names : List Name) (s : ScopeStack),
    (names.foldl (·.unbind ·) s).outer = s.outer
  | [], _ => rfl
  | n :: names, s => outer_foldl_unbind names (s.unbind n)

/-- The form `var` leaves its names bound. -/
theorem BindingForm.Accepts.bound {f : BindingForm} {pos : Pos} {words : List Word} {names : List Name}
    {values : ValuesOp F} (h : f.Accepts env pos words s (.var names values pos) s') :
    ∀ n ∈ names, s'.scopes.innermost[n]? = some .any := by
  intro n hn
  cases h with
  | declare | var => rw [CompileState.scopes_bound, getElem?_foldl_bind, if_pos hn]

/-- The form `del` takes its names out of the innermost frame and does nothing else to the frames. -/
theorem BindingForm.Accepts.deleted {f : BindingForm} {pos : Pos} {words : List Word} {names : List Name}
    (h : f.Accepts env pos words s (.del names pos) s') : s'.scopes.outer = s.scopes.outer ∧
      ∀ m : Name, s'.scopes.innermost[m]? = if m ∈ names then none else s.scopes.innermost[m]? := by
  cases h with
  | del xs => exact ⟨outer_foldl_unbind _ s.scopes, fun m => getElem?_foldl_unbind m _ s.scopes⟩

/-- The form `fn` binds its function and does nothing else to the frames. -/
theorem BindingForm.Accepts.defined {f : BindingForm} {pos : Pos} {words : List Word} {name : Name}
    {closure : ValuesOp F} (h : f.Accepts env pos words s (.fn name closure pos) s')
    (horderly : env.Orderly) : s'.scopes = s.scopes.bind (functionName name) .closure := by
  cases h with
  | fn x b _ hclosure => exact horderly.scopes_after_closure hclosure

/-- **The forms that bind names accept exactly their grammar.** With any words at all: the form compiles
exactly if they are in its grammar and what they hold compiles, and its op has the names in order. Then
`var` leaves its names bound in the innermost frame, `del` leaves that frame without them and otherwise
as it was, and `fn` leaves its function bound there; for `fn` the special forms used in the closure have
to leave the frames around them alone. If a word is the first that the form does not take, it fails with
a message at that word, and if there are no names, no `=` or not two words, at the form; it fails in no
other way, unless the words are in its grammar and a value or the closure fails. -/
theorem binding_forms_grammar (env : Env F) (f : BindingForm) (words : List Word) (pos argsPos : Pos)
    (s : CompileState) :
    (∀ r s', (f.compile (env.use pos argsPos words)).Gives s r s' ↔
      ∃ op, r = some op ∧ f.Accepts env pos words s op s') ∧
    (∀ op s', f.Accepts env pos words s op s' →
      (∀ names values, op = .var names values pos → ∀ n ∈ names, s'.scopes.innermost[n]? = some .any) ∧
      (∀ names, op = .del names pos → s'.scopes.outer = s.scopes.outer ∧ ∀ m : Name,
        s'.scopes.innermost[m]? = if m ∈ names then none else s.scopes.innermost[m]?) ∧
      (∀ name closure, op = .fn name closure pos → env.Orderly →
        s'.scopes = s.scopes.bind (functionName name) .closure)) ∧
    (∀ place cause, f.Rejects pos words s place cause → ∃ s',
      (f.compile (env.use pos argsPos words)).outcome s = (.error (.rejected place cause), s')) ∧
    (∀ failure s', (f.compile (env.use pos argsPos words)).outcome s = (.error failure, s') →
      (∃ place cause, failure = .rejected place cause ∧ f.Rejects pos words s place cause) ∨
        f.Breaks env words s failure s') := by
  have haccepts {op : ValuesOp F} {s' : CompileState} (h : f.Accepts env pos words s op s') :
      (f.compile (env.use pos argsPos words)).outcome s = (.ok (some op), s') :=
    BindingForm.outcome_of_accepts h argsPos
  have hbreaks {failure : Failure} {s' : CompileState} (h : f.Breaks env words s failure s') :
      (f.compile (env.use pos argsPos words)).outcome s = (.error failure, s') :=
    BindingForm.outcome_of_breaks h pos argsPos
  refine ⟨fun r s' => ⟨fun hgives => ?_, ?_⟩, fun op s' h => ⟨?_, ?_, ?_⟩,
    fun place cause h => BindingForm.outcome_of_rejects h env argsPos, fun failure s' hfails => ?_⟩
  · have hgives : (f.compile (env.use pos argsPos words)).outcome s = (.ok r, s') := hgives
    rcases f.answered env pos words s with ⟨op, t, h⟩ | ⟨place, cause, h⟩ | ⟨failure, t, h⟩
    · rw [haccepts h] at hgives
      obtain ⟨hr, rfl⟩ := Prod.mk.inj hgives
      exact ⟨op, (Except.ok.inj hr).symm, h⟩
    · obtain ⟨t, ht⟩ := BindingForm.outcome_of_rejects h env argsPos
      rw [ht] at hgives
      cases hgives
    · rw [hbreaks h] at hgives
      cases hgives
  · rintro ⟨op, rfl, h⟩
    exact haccepts h
  · rintro names values rfl
    exact h.bound
  · rintro names rfl
    exact h.deleted
  · rintro name closure rfl horderly
    exact h.defined horderly
  · rcases f.answered env pos words s with ⟨op, t, h⟩ | ⟨place, cause, h⟩ | ⟨failure', t, h⟩
    · rw [haccepts h] at hfails
      cases hfails
    · obtain ⟨t, ht⟩ := BindingForm.outcome_of_rejects h env argsPos
      rw [ht] at hfails
      obtain ⟨hfailure, -⟩ := Prod.mk.inj hfails
      exact .inl ⟨place, cause, (Except.error.inj hfailure).symm, h⟩
    · rw [hbreaks h] at hfails
      obtain ⟨hfailure, rfl⟩ := Prod.mk.inj hfails
      obtain rfl := Except.error.inj hfailure
      exact .inr h

/-- The word `x` at an offset. -/
def wordX (pos : Pos) : NameWord := ⟨pos, pos, pos, utf8 "x", by decide, by decide⟩

/-- The word `{|p| x $p}`, whose code calls the function `x`. -/
def callsX : LiteralWord := ⟨2, 2, 2, some (closureOf ["p"] [formOf "x" [.variable 0 (utf8 "p")]])⟩

/-- `del x x` stops at the second `x`, and `fn x {|p| x $p}` leaves its function bound. -/
theorem binding_forms_grammar_x :
    (∃ s', (compileDel ((coreEnv : Env Unit).use 0 0 [(wordX 1).toWord, (wordX 2).toWord])).outcome
      (.ofRoot {(utf8 "x", .list)}) = (.error (.rejected 2 (.notLocal (utf8 "x"))), s')) ∧
    ∃ closure s', (compileFn ((coreEnv : Env Unit).use 0 0 [(wordX 1).toWord, callsX.toWord])).Gives
      (.ofRoot ∅) (some (.fn (utf8 "x") closure 0)) s' ∧
      s'.scopes = (ScopeStack.ofRoot ∅).bind (functionName (utf8 "x")) .closure := by
  constructor
  · have hgrammar := binding_forms_grammar (coreEnv : Env Unit) .del [(wordX 1).toWord, (wordX 2).toWord]
      0 0 (.ofRoot {(utf8 "x", .list)})
    have hfirst : utf8 "x" ∈ (CompileState.ofRoot {(utf8 "x", .list)}).scopes.innermost := by
      decide +kernel
    refine hgrammar.2.2.1 _ _ (.word [wordX 1] [] (by decide) (.cons (.del hfirst) .nil) (.notLocal ?_))
    decide +kernel
  · have hgrammar := binding_forms_grammar (coreEnv : Env Unit) .fn [(wordX 1).toWord, callsX.toWord]
      0 0 (.ofRoot ∅)
    obtain ⟨closure, s', hclosure⟩ : ∃ closure s', (forwarding (compileClosure (coreEnv : Env Unit)
        (closureOf ["p"] [formOf "x" [.variable 0 (utf8 "p")]]))).Gives
        { CompileState.ofRoot ∅ with
          scopes := (ScopeStack.ofRoot ∅).bind (functionName (utf8 "x")) .closure } closure s' :=
      CompileM.exists_gives (by decide +kernel)
    have haccepts : BindingForm.Accepts coreEnv 0 .fn [(wordX 1).toWord, callsX.toWord] (.ofRoot ∅)
        (.fn (utf8 "x") closure 0) s' := .fn (wordX 1) callsX rfl hclosure
    refine ⟨closure, s', (hgrammar.1 _ s').2 ⟨_, rfl, haccepts⟩, ?_⟩
    exact (hgrammar.2.1 _ s' haccepts).2.2 _ closure rfl coreOnly_coreEnv.orderly

end ShellOps
