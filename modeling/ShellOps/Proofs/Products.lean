/-
# The values of a word

A word of several parts has one value for every choice of one value from each part: the values chosen,
joined from left to right. The choices come in the lexicographic order of their indices, the leftmost
part varying slowest. So a part without values leaves the word without any, and a word of one part has
the values of that part.

The parts run and are joined one by one, and what has been joined so far is always such a product of the
parts so far (`LexProduct`): one more part is one more index at the right end of every tuple
(`LexProduct.further`). Where joining is associative it does not matter which neighbours are joined first,
so a word can stand in place of some adjacent parts of another (`product_group`).
-/
import Mathlib.Algebra.GroupWithZero.Nat
import Mathlib.Data.List.Forall2
import Mathlib.Data.List.Lex
import ShellOps.Proofs.Readings
import ShellOps.Proofs.Running

namespace ShellOps

variable {w : World} {F V : Type}

/-! ### Tuples of indices -/

/-- The tuples are all those with one index below each of the sizes, in lexicographic order. -/
structure InLexOrder (sizes : List Nat) (tuples : List (List Nat)) : Prop where
  sorted : tuples.Pairwise (List.Lex (· < ·))
  mem_iff : ∀ t, t ∈ tuples ↔ List.Forall₂ (· < ·) t sizes

theorem lex_append_of_length_eq {t t' : List Nat} (h : List.Lex (· < ·) t t')
    (hlength : t.length = t'.length) (i j : Nat) : List.Lex (· < ·) (t ++ [i]) (t' ++ [j]) := by
  induction h with
  | nil => simp at hlength
  | rel hlt => exact .rel hlt
  | cons _ ih => exact .cons (ih (by simpa using hlength))

theorem forall₂_concat_iff {t sizes : List Nat} {n : Nat} :
    List.Forall₂ (· < ·) t (sizes ++ [n]) ↔
      ∃ t' i, List.Forall₂ (· < ·) t' sizes ∧ i < n ∧ t = t' ++ [i] := by
  constructor
  · intro h
    have hfront := List.forall₂_take_append t sizes [n] h
    have hlast := List.forall₂_drop_append t sizes [n] h
    cases hdrop : t.drop sizes.length with
    | nil =>
      rw [hdrop] at hlast
      cases hlast
    | cons i rest =>
      rw [hdrop] at hlast
      obtain ⟨hi, hrest⟩ := List.forall₂_cons.1 hlast
      obtain rfl := List.forall₂_nil_right_iff.1 hrest
      refine ⟨t.take sizes.length, i, hfront, hi, ?_⟩
      rw [← hdrop, List.take_append_drop]
  · rintro ⟨t', i, hfront, hi, rfl⟩
    exact List.rel_append hfront (.cons hi .nil)

namespace InLexOrder

theorem nil : InLexOrder [] [[]] where
  sorted := List.pairwise_singleton _ _
  mem_iff t := by rw [List.mem_singleton, List.forall₂_nil_right_iff]

/-- One more index at the right end varies fastest. -/
theorem further {sizes : List Nat} {tuples : List (List Nat)} (h : InLexOrder sizes tuples) (n : Nat) :
    InLexOrder (sizes ++ [n]) (tuples.flatMap fun t => (List.range n).map fun i => t ++ [i]) where
  sorted := by
    rw [List.pairwise_flatMap]
    constructor
    · intro t _
      rw [List.pairwise_map]
      exact List.pairwise_lt_range.imp fun hlt => List.Lex.append_left _ (.rel hlt) t
    · have hlengths : ∀ t ∈ tuples, t.length = sizes.length := fun t ht =>
        ((h.mem_iff t).1 ht).length_eq
      refine h.sorted.imp_of_mem fun {t t'} ht ht' hlt u hu u' hu' => ?_
      obtain ⟨i, -, rfl⟩ := List.mem_map.1 hu
      obtain ⟨j, -, rfl⟩ := List.mem_map.1 hu'
      exact lex_append_of_length_eq hlt ((hlengths t ht).trans (hlengths t' ht').symm) i j
  mem_iff t := by
    rw [forall₂_concat_iff, List.mem_flatMap]
    constructor
    · rintro ⟨t', ht', ht⟩
      obtain ⟨i, hi, rfl⟩ := List.mem_map.1 ht
      exact ⟨t', i, (h.mem_iff t').1 ht', List.mem_range.1 hi, rfl⟩
    · rintro ⟨t', i, ht', hi, rfl⟩
      exact ⟨t', (h.mem_iff t').2 ht', List.mem_map.2 ⟨i, List.mem_range.2 hi, rfl⟩⟩

end InLexOrder

/-! ### Products -/

/-- Joins every value on the left with every value on the right, the left one varying slowest. -/
def crossJoin (op : V → V → V) (lefts rights : List V) : List V :=
  lefts.flatMap fun l => rights.map fun r => op l r

theorem crossJoin_assoc {op : V → V → V} (h : ∀ a b c, op (op a b) c = op a (op b c))
    (as bs cs : List V) : crossJoin op (crossJoin op as bs) cs = crossJoin op as (crossJoin op bs cs) := by
  simp [crossJoin, List.flatMap_assoc, List.map_flatMap, List.flatMap_map, Function.comp_def, h]

theorem length_crossJoin (op : V → V → V) (lefts rights : List V) :
    (crossJoin op lefts rights).length = lefts.length * rights.length := by
  induction lefts with
  | nil => simp [crossJoin]
  | cons l lefts ih =>
    rw [crossJoin] at ih ⊢
    rw [List.flatMap_cons, List.length_append, ih, List.length_map, List.length_cons, Nat.succ_mul]
    exact Nat.add_comm _ _

/-- The value is what the parts have at the indices of the tuple, joined from left to right. A part comes
with its place, which is where its value is joined to those before. -/
inductive JoinedAt (join : V → V → Pos → V) : List (Pos × List V) → List Nat → V → Prop
  | first {pos vs i v} : vs[i]? = some v → JoinedAt join [(pos, vs)] [i] v
  | further {parts t u pos vs i v} : JoinedAt join parts t u → vs[i]? = some v →
    JoinedAt join (parts ++ [(pos, vs)]) (t ++ [i]) (join u v pos)

/-- The values are the lexicographic product of the parts: one for each tuple of indices, in the order of
the tuples. -/
structure LexProduct (join : V → V → Pos → V) (parts : List (Pos × List V)) (values : List V) : Prop where
  length_eq : values.length = (parts.map fun part => part.2.length).prod
  elements : ∃ tuples, InLexOrder (parts.map fun part => part.2.length) tuples ∧
    List.Forall₂ (JoinedAt join parts) tuples values

theorem forall₂_range (vs : List V) :
    List.Forall₂ (fun i v => vs[i]? = some v) (List.range vs.length) vs := by
  rw [List.forall₂_iff_get]
  refine ⟨List.length_range, fun i hi hi' => ?_⟩
  simp [hi']

namespace LexProduct

variable {join : V → V → Pos → V} {parts : List (Pos × List V)} {values : List V}

/-- The product of one part is that part. -/
theorem first (pos : Pos) (vs : List V) : LexProduct join [(pos, vs)] vs where
  length_eq := by simp
  elements := by
    refine ⟨_, InLexOrder.nil.further vs.length, ?_⟩
    rw [List.flatMap_singleton, List.forall₂_map_left_iff]
    exact (forall₂_range vs).imp fun i v hv => .first hv

/-- One more part. -/
theorem further (h : LexProduct join parts values) (pos : Pos) (vs : List V) :
    LexProduct join (parts ++ [(pos, vs)]) (crossJoin (join · · pos) values vs) where
  length_eq := by
    rw [length_crossJoin, h.length_eq, List.map_append, List.prod_append]
    simp
  elements := by
    obtain ⟨tuples, htuples, hvalues⟩ := h.elements
    rw [List.map_append]
    refine ⟨_, htuples.further vs.length, List.rel_flatMap hvalues fun t u hu => ?_⟩
    rw [List.forall₂_map_left_iff, List.forall₂_map_right_iff]
    exact (forall₂_range vs).imp fun i v hv => hu.further hv

end LexProduct

/-! ### Running the parts -/

/-- The ops run one after the other without failing, each giving its list of values. -/
inductive EvaluateTo (ev : Evaluator w F) :
    List (ValuesOp F) → w.State → List (List w.Value) → w.State → Prop
  | nil {σ} : EvaluateTo ev [] σ [] σ
  | cons {op ops σ vs τ lists σ'} : Run.outcome (op.eval ev) σ = (.ok vs, τ) →
    EvaluateTo ev ops τ lists σ' → EvaluateTo ev (op :: ops) σ (vs :: lists) σ'

theorem EvaluateTo.sizes_eq {ev : Evaluator w F} {ops : List (ValuesOp F)} {σ σ' : w.State}
    {lists : List (List w.Value)} (h : EvaluateTo ev ops σ lists σ') :
    ((ops.map ValuesOp.pos).zip lists).map (fun part => part.2.length) = lists.map List.length := by
  induction h with
  | nil => rfl
  | cons _ _ ih => rw [List.map_cons, List.zip_cons_cons, List.map_cons, List.map_cons, ih]

theorem evalSteps_eq_map (ev : Evaluator w F) (ops : List (ValuesOp F)) :
    evalSteps ev ops = ops.map fun op => (op.pos, op.eval ev) := by
  induction ops with
  | nil => rw [evalSteps, List.map_nil]
  | cons op ops ih => rw [evalSteps, ih, List.map_cons]

theorem productFrom_append (ev : Evaluator w F) (acc : List w.Value)
    (steps steps' : List (Pos × Run w (List w.Value))) :
    productFrom ev acc (steps ++ steps') =
      productFrom ev acc steps >>= fun joined => productFrom ev joined steps' := by
  induction steps generalizing acc with
  | nil => simp [productFrom]
  | cons step steps ih => simp [productFrom, ih]

theorem product_append (ev : Evaluator w F) {steps : List (Pos × Run w (List w.Value))}
    (h : steps ≠ []) (steps' : List (Pos × Run w (List w.Value))) :
    product ev (steps ++ steps') = product ev steps >>= fun joined => productFrom ev joined steps' := by
  cases steps with
  | nil => exact absurd rfl h
  | cons step steps => simp [product, productFrom_append]

section

variable {ev : Evaluator w F} {join : w.Value → w.Value → Pos → w.Value}
variable (hconcat : ∀ l r pos, ev.concat l r pos = pure (join l r pos))
include hconcat

theorem concatAll_of_pure (lefts rights : List w.Value) (pos : Pos) :
    concatAll ev lefts rights pos = pure (crossJoin (join · · pos) lefts rights) := by
  have hjoin : ∀ p : w.Value × w.Value, ev.concat p.1 p.2 pos = pure (join p.1 p.2 pos) := fun p =>
    hconcat p.1 p.2 pos
  unfold concatAll crossJoin
  simp only [hjoin, List.mapM_pure, List.map_flatMap, List.map_map]
  rfl

/-- **Joining further parts.** The invariant of the loop over the parts: what has been joined is the
product of the parts so far. -/
theorem exists_productFrom {ops : List (ValuesOp F)} {σ σ' : w.State} {lists : List (List w.Value)}
    (h : EvaluateTo ev ops σ lists σ') : ∀ {parts acc}, LexProduct join parts acc →
    ∃ values, Run.outcome (productFrom ev acc (evalSteps ev ops)) σ = (.ok values, σ') ∧
      LexProduct join (parts ++ (ops.map ValuesOp.pos).zip lists) values := by
  induction h with
  | nil =>
    intro parts acc hacc
    rw [evalSteps, productFrom]
    exact ⟨acc, rfl, by simpa using hacc⟩
  | @cons op ops σ vs τ lists σ' hop _ ih =>
    intro parts acc hacc
    obtain ⟨values, hrun, hvalues⟩ := ih (hacc.further op.pos vs)
    refine ⟨values, ?_, by simpa using hvalues⟩
    rw [evalSteps, productFrom, Run.outcome_bind, hop]
    simp only [concatAll_of_pure hconcat, pure_bind]
    exact hrun

theorem exists_product {ops : List (ValuesOp F)} (hne : ops ≠ []) {σ σ' : w.State}
    {lists : List (List w.Value)} (h : EvaluateTo ev ops σ lists σ') :
    ∃ values, Run.outcome (product ev (evalSteps ev ops)) σ = (.ok values, σ') ∧
      LexProduct join ((ops.map ValuesOp.pos).zip lists) values := by
  cases h with
  | nil => exact absurd rfl hne
  | @cons op ops _ vs τ lists _ hop hops =>
    obtain ⟨values, hrun, hvalues⟩ := exists_productFrom hconcat hops (.first op.pos vs)
    refine ⟨values, ?_, hvalues⟩
    rw [evalSteps, product, Run.outcome_bind, hop]
    exact hrun

end

/-! ### Grouping parts -/

section

variable {ev : Evaluator w F} {op : w.Value → w.Value → w.Value}
variable (hconcat : ∀ l r pos, ev.concat l r pos = pure (op l r))
variable (hassoc : ∀ a b c, op (op a b) c = op a (op b c))
include hconcat hassoc

/-- Joining values to a product is joining them to its first part. -/
theorem concatAll_productFrom (acc vs : List w.Value) (steps : List (Pos × Run w (List w.Value)))
    (pos : Pos) :
    (do concatAll ev acc (← productFrom ev vs steps) pos) =
      productFrom ev (crossJoin op acc vs) steps := by
  induction steps generalizing vs with
  | nil => simp [productFrom, concatAll_of_pure hconcat]
  | cons step steps ih =>
    simp only [productFrom, concatAll_of_pure hconcat, bind_assoc, pure_bind] at ih ⊢
    refine bind_congr fun us => ?_
    rw [ih, crossJoin_assoc hassoc]

/-- A product can stand in place of its parts among the parts that are joined. -/
theorem productFrom_group (acc : List w.Value) {steps : List (Pos × Run w (List w.Value))}
    (h : steps ≠ []) (pos : Pos) (rest : List (Pos × Run w (List w.Value))) :
    productFrom ev acc ((pos, product ev steps) :: rest) = productFrom ev acc (steps ++ rest) := by
  cases steps with
  | nil => exact absurd rfl h
  | cons step steps =>
    have hgroup := fun vs => concatAll_productFrom hconcat hassoc acc vs steps pos
    simp only [List.cons_append, productFrom, product, bind_assoc, productFrom_append]
    refine bind_congr fun vs => ?_
    rw [concatAll_of_pure hconcat, pure_bind, ← hgroup, bind_assoc]

theorem product_group (front : List (Pos × Run w (List w.Value)))
    {steps : List (Pos × Run w (List w.Value))} (h : steps ≠ []) (pos : Pos)
    (rest : List (Pos × Run w (List w.Value))) :
    product ev (front ++ (pos, product ev steps) :: rest) = product ev (front ++ steps ++ rest) := by
  cases front with
  | nil => exact (product_append ev h rest).symm
  | cons step front =>
    rw [List.append_assoc, List.cons_append, List.cons_append, product, product]
    refine bind_congr fun vs => ?_
    rw [productFrom_append, productFrom_append]
    exact bind_congr fun joined => productFrom_group hconcat hassoc joined h pos rest

theorem eval_word_group (before : List (ValuesOp F)) {group : List (ValuesOp F)} (h : group ≠ [])
    (after : List (ValuesOp F)) (groupPos pos : Pos) :
    (ValuesOp.word (before ++ ValuesOp.word group groupPos :: after) pos).eval ev =
      (ValuesOp.word (before ++ group ++ after) pos).eval ev := by
  rw [eval_word ev (by simp), eval_word ev (by simp [h])]
  simp only [evalSteps_eq_map, List.map_append, List.map_cons, eval_word ev h]
  exact product_group hconcat hassoc _ (by simpa using h) _ _

end

/-- **The values of a word are the product of its parts.** Let joining two values always give a value and
do nothing else. If the parts run to lists of values, the word runs to their product: for every tuple
of indices, in lexicographic order, the values of the parts at these indices, joined from left to right
at the place of the part on the right. A word without parts has no values. If joining does not
depend on places and is associative, adjacent parts can be put together in a word of their own: it runs as
before, also where a part fails. -/
theorem word_is_lexicographic_product {ev : Evaluator w F} {join : w.Value → w.Value → Pos → w.Value}
    (hconcat : ∀ l r pos, ev.concat l r pos = pure (join l r pos)) :
    (∀ parts pos σ lists σ', EvaluateTo ev parts σ lists σ' →
      ∃ values, Run.outcome ((ValuesOp.word parts pos).eval ev) σ = (.ok values, σ') ∧
        (parts = [] → values = []) ∧
        (parts ≠ [] → values.length = (lists.map List.length).prod ∧
          LexProduct join ((parts.map ValuesOp.pos).zip lists) values)) ∧
    ∀ op : w.Value → w.Value → w.Value, (∀ l r pos, join l r pos = op l r) →
      (∀ a b c, op (op a b) c = op a (op b c)) →
      ∀ before group after groupPos pos, group ≠ [] →
        (ValuesOp.word (before ++ ValuesOp.word group groupPos :: after) pos).eval ev =
          (ValuesOp.word (before ++ group ++ after) pos).eval ev := by
  refine ⟨fun parts pos σ lists σ' h => ?_, fun op hop hassoc before group after groupPos pos hgroup => ?_⟩
  · by_cases hne : parts = []
    · subst hne
      cases h
      have hnone : (ValuesOp.word ([] : List (ValuesOp F)) pos).eval ev = pure [] := by
        show (ValuesOp.compound [] pos).eval ev = pure []
        rw [ValuesOp.eval, evalSteps, product]
      rw [hnone]
      exact ⟨[], rfl, fun _ => rfl, fun hparts => absurd rfl hparts⟩
    · obtain ⟨values, hrun, hvalues⟩ := exists_product hconcat hne h
      rw [← eval_word ev hne pos] at hrun
      refine ⟨values, hrun, fun hparts => absurd hparts hne, fun _ => ⟨?_, hvalues⟩⟩
      rw [hvalues.length_eq, h.sizes_eq]
  · have hpure : ∀ l r p, ev.concat l r p = pure (op l r) := fun l r p => by rw [hconcat, hop]
    exact eval_word_group hpure hassoc before hgroup after groupPos pos

/-- Joins the texts of two values. -/
def joinTexts (l r : Machine.Value) : Machine.Value := .string (l.toText ++ r.toText)

/-- The machine, joining any two values by their texts without logging it. -/
def joiningMachine : Evaluator Machine.world Machine.Function :=
  { Machine.top with concat := fun l r _ => pure (joinTexts l r) }

/-- Two texts, one text, and two texts again. -/
def threeParts : List (ValuesOp Machine.Function) :=
  [.spaced [.string (utf8 "a") 1, .string (utf8 "b") 2] 1, .string (utf8 "-") 3,
    .spaced [.string (utf8 "c") 4, .string (utf8 "d") 5] 4]

theorem word_is_lexicographic_product_threeParts :
    (∀ a b c, joinTexts (joinTexts a b) c = joinTexts a (joinTexts b c)) ∧
    ∃ lists σ', EvaluateTo joiningMachine threeParts {} lists σ' ∧
      ∃ values, Run.outcome ((ValuesOp.word threeParts 0).eval joiningMachine) {} = (.ok values, σ') ∧
        LexProduct (fun l r _ => joinTexts l r) ((threeParts.map ValuesOp.pos).zip lists) values ∧
        values.map Machine.Value.toText = [utf8 "a-c", utf8 "a-d", utf8 "b-c", utf8 "b-d"] ∧
        ∀ groupPos, (ValuesOp.word (threeParts.take 1 ++ [ValuesOp.word (threeParts.drop 1) groupPos])
          0).eval joiningMachine = (ValuesOp.word threeParts 0).eval joiningMachine := by
  have hassoc : ∀ a b c, joinTexts (joinTexts a b) c = joinTexts a (joinTexts b c) := fun a b c => by
    simp [joinTexts, Machine.Value.toText, Machine.Value.string]
  have hparts : ∃ lists σ', EvaluateTo joiningMachine threeParts {} lists σ' :=
    ⟨_, _, .cons rfl (.cons rfl (.cons rfl .nil))⟩
  obtain ⟨lists, σ', h⟩ := hparts
  have hconcat : ∀ l r pos, joiningMachine.concat l r pos = pure (joinTexts l r) := fun _ _ _ => rfl
  obtain ⟨hproduct, hgroup⟩ := word_is_lexicographic_product hconcat
  obtain ⟨values, hrun, -, hlex⟩ := hproduct threeParts 0 {} lists σ' h
  refine ⟨hassoc, lists, σ', h, values, hrun, (hlex (by simp [threeParts])).2, ?_, fun groupPos => ?_⟩
  · have htexts : (Run.outcome ((ValuesOp.word threeParts 0).eval joiningMachine) {}).1.map
        (List.map Machine.Value.toText) = .ok [utf8 "a-c", utf8 "a-d", utf8 "b-c", utf8 "b-d"] := by
      rfl
    rw [hrun] at htexts
    exact Except.ok.inj htexts
  · exact hgroup joinTexts (fun _ _ _ => rfl) hassoc (threeParts.take 1) (threeParts.drop 1) [] groupPos 0
      (by simp [threeParts])

end ShellOps
