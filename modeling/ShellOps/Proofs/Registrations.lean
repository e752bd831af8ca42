/-
# A registry in use

Builtins are registered, unregistered and looked up in any order. For each of the two kinds the registry is
a map that can be told from the history: a name has the entry of its last registration, unless it was
unregistered or the registry was cleared since. What is done to one kind does not show in the other. The
number of a registration is never given again, so an entry that was looked up before is still the one of
its name exactly if nothing was done to the name since (`registry_is_two_maps`).
-/
import ShellOps.Proofs.Histories
import ShellOps.Proofs.Lookups
import ShellOps.Proofs.OpShape

namespace ShellOps

variable {F : Type}

/-! ### Steps and runs -/

/-- The kinds of builtin. -/
inductive BuiltinKind
  | function | special
deriving DecidableEq

/-- What a builtin of the kind does. -/
abbrev BuiltinKind.Body (F : Type) : BuiltinKind → Type
  | .function => F
  | .special => SpecialForm F

/-- A use of a registry. -/
inductive RegistryStep (F : Type)
  | registerFunction (n : Name) (body : F)
  | registerSpecial (n : Name) (body : SpecialForm F)
  | registerCore
  | unregisterFunction (n : Name)
  | unregisterSpecial (n : Name)
  | clear
  | findFunction (n : Name)
  | findSpecial (n : Name)

namespace RegistryStep

/-- The kind of builtin that a step has to do with; to clear a registry has to do with both. -/
def kind? : RegistryStep F → Option BuiltinKind
  | registerFunction .. | unregisterFunction _ | findFunction _ => some .function
  | registerSpecial .. | registerCore | unregisterSpecial _ | findSpecial _ => some .special
  | clear => none

/-- What the step registers under a name. -/
def registers? : (k : BuiltinKind) → Name → RegistryStep F → Option (k.Body F)
  | .function, n, registerFunction m body => if m = n then some body else none
  | .special, n, registerSpecial m body => if m = n then some body else none
  | .special, n, registerCore => (BindingForm.ofName? n).map BindingForm.compile
  | _, _, _ => none

/-- The step takes the entry of a name away. -/
def Removes : BuiltinKind → Name → RegistryStep F → Prop
  | .function, n, unregisterFunction m => m = n
  | .special, n, unregisterSpecial m => m = n
  | _, _, clear => True
  | _, _, _ => False

/-- The step registers the name as a builtin of the kind, unregisters it, or clears the registry. -/
def Touches (k : BuiltinKind) (n : Name) (step : RegistryStep F) : Prop :=
  (step.registers? k n).isSome ∨ step.Removes k n

end RegistryStep

namespace Registry

/-- The registry after a step. To look a name up does not change it. -/
def perform (r : Registry F) : RegistryStep F → Registry F
  | .registerFunction n body => r.registerFunction n body
  | .registerSpecial n body => r.registerSpecial n body
  | .registerCore => r.registerCore
  | .unregisterFunction n => r.unregisterFunction n
  | .unregisterSpecial n => r.unregisterSpecial n
  | .clear => r.clear
  | .findFunction _ => r
  | .findSpecial _ => r

/-- The registry after some steps. -/
def after (r : Registry F) (steps : List (RegistryStep F)) : Registry F := steps.foldl perform r

/-- The entries of one kind. -/
def entries (r : Registry F) : (k : BuiltinKind) → NameMap (Builtin (k.Body F))
  | .function => r.functions
  | .special => r.specials

def find (r : Registry F) : (k : BuiltinKind) → Name → Option (Builtin (k.Body F))
  | .function, n => r.findFunction n
  | .special, n => r.findSpecial n

def names (r : Registry F) : BuiltinKind → List Name
  | .function => r.functionNames
  | .special => r.specialNames

def count (r : Registry F) : BuiltinKind → Nat
  | .function => r.functionCount
  | .special => r.specialCount

/-- Whether an entry that was looked up before is the one its name has now. -/
def holds (r : Registry F) : (k : BuiltinKind) → Builtin (k.Body F) → Bool
  | .function, entry => r.holdsFunction entry
  | .special, entry => r.holdsSpecial entry

theorem after_append (r : Registry F) (steps steps' : List (RegistryStep F)) :
    r.after (steps ++ steps') = (r.after steps).after steps' := List.foldl_append

theorem find_eq (r : Registry F) (k : BuiltinKind) (n : Name) : r.find k n = (r.entries k)[n]? := by
  cases k <;> rfl

theorem find_empty (k : BuiltinKind) (n : Name) : (empty : Registry F).find k n = none := by
  cases k <;> exact Std.ExtTreeMap.getElem?_empty

theorem holds_eq_true_iff (r : Registry F) (k : BuiltinKind) (entry : Builtin (k.Body F)) :
    r.holds k entry = true ↔ ∃ e, r.find k entry.name = some e ∧ e.id = entry.id := by
  cases k with
  | function => simp [holds, holdsFunction, find, Option.any_eq_true]
  | special => simp [holds, holdsSpecial, find, Option.any_eq_true]

/-! ### What one step does -/

theorem next_le_perform (r : Registry F) (step : RegistryStep F) : r.next ≤ (r.perform step).next := by
  cases step with
  | registerFunction | registerSpecial => exact Nat.le_succ _
  | registerCore => exact Nat.le_add_right r.next 4
  | unregisterFunction | unregisterSpecial | clear | findFunction | findSpecial => exact Nat.le_refl _

/-- Registers a form that binds names. -/
def registerForm (r : Registry F) (f : BindingForm) : Registry F :=
  r.registerSpecial (utf8 f.name) f.compile

theorem findSpecial_registerForms_of_ne {n : Name} : ∀ (fs : List BindingForm) (r : Registry F),
    (∀ f ∈ fs, utf8 f.name ≠ n) → (fs.foldl registerForm r).findSpecial n = r.findSpecial n
  | [], _, _ => rfl
  | f :: fs, r, h => by
    have hrest := findSpecial_registerForms_of_ne fs (r.registerForm f)
      fun g hg => h g (List.mem_cons_of_mem f hg)
    rw [List.foldl_cons, hrest, registerForm, findSpecial_registerSpecial,
      if_neg (h f List.mem_cons_self)]

theorem findSpecial_registerForms_of_mem {f : BindingForm} : ∀ (fs : List BindingForm) (r : Registry F),
    f ∈ fs → ∃ id, r.next ≤ id ∧
      (fs.foldl registerForm r).findSpecial (utf8 f.name) = some ⟨id, utf8 f.name, f.compile⟩
  | g :: fs, r, h => by
    rw [List.foldl_cons]
    by_cases hmem : f ∈ fs
    · obtain ⟨id, hid, hfind⟩ := findSpecial_registerForms_of_mem fs (r.registerForm g) hmem
      exact ⟨id, Nat.le_of_succ_le hid, hfind⟩
    · -- the forms after the last `f` have other names
      obtain rfl : f = g := (List.mem_cons.1 h).resolve_right hmem
      have hother : ∀ g ∈ fs, utf8 g.name ≠ utf8 f.name := by
        intro g hg hname
        have hform : BindingForm.ofName? (utf8 g.name) = some f := by
          rw [hname, BindingForm.ofName?_name]
        rw [BindingForm.ofName?_name] at hform
        exact hmem (Option.some.inj hform ▸ hg)
      refine ⟨r.next, Nat.le_refl _, ?_⟩
      rw [findSpecial_registerForms_of_ne fs _ hother, registerForm, findSpecial_registerSpecial, if_pos rfl]

/-- What a step registers is found, with a number not given before. -/
theorem find_perform_of_registers (r : Registry F) {step : RegistryStep F} {k : BuiltinKind} {n : Name}
    {body : k.Body F} (h : step.registers? k n = some body) :
    ∃ id, r.next ≤ id ∧ (r.perform step).find k n = some ⟨id, n, body⟩ := by
  cases k with
  | function =>
    cases step with
    | registerFunction m b =>
      obtain ⟨rfl, hb⟩ := Option.ite_none_right_eq_some.1 h
      obtain rfl := Option.some.inj hb
      exact ⟨r.next, Nat.le_refl _, (r.findFunction_registerFunction m m b).trans (if_pos rfl)⟩
    | _ => cases h
  | special =>
    cases step with
    | registerSpecial m b =>
      obtain ⟨rfl, hb⟩ := Option.ite_none_right_eq_some.1 h
      obtain rfl := Option.some.inj hb
      exact ⟨r.next, Nat.le_refl _, (r.findSpecial_registerSpecial m m b).trans (if_pos rfl)⟩
    | registerCore =>
      obtain ⟨f, hf, rfl⟩ := Option.map_eq_some_iff.1 h
      have hname : utf8 f.name = n := by simpa using List.find?_some hf
      subst hname
      exact findSpecial_registerForms_of_mem _ r (List.mem_of_find?_eq_some hf)
    | _ => cases h

theorem find_perform_of_removes (r : Registry F) {step : RegistryStep F} {k : BuiltinKind} {n : Name}
    (h : step.Removes k n) : (r.perform step).find k n = none := by
  cases k with
  | function =>
    cases step with
    | unregisterFunction m => exact (r.findFunction_unregisterFunction m n).trans (if_pos h)
    | clear => exact Std.ExtTreeMap.getElem?_empty
    | _ => cases h
  | special =>
    cases step with
    | unregisterSpecial m => exact (r.findSpecial_unregisterSpecial m n).trans (if_pos h)
    | clear => exact Std.ExtTreeMap.getElem?_empty
    | _ => cases h

theorem find_perform_of_not_touches (r : Registry F) {step : RegistryStep F} {k : BuiltinKind} {n : Name}
    (h : ¬ step.Touches k n) : (r.perform step).find k n = r.find k n := by
  obtain ⟨hregisters, hremoves⟩ := not_or.1 h
  cases k with
  | function =>
    cases step with
    | registerFunction m b =>
      have hm : m ≠ n := fun hm => hregisters (by simp [RegistryStep.registers?, hm])
      exact (r.findFunction_registerFunction m n b).trans (if_neg hm)
    | unregisterFunction m => exact (r.findFunction_unregisterFunction m n).trans (if_neg hremoves)
    | clear => exact absurd trivial hremoves
    | _ => rfl
  | special =>
    cases step with
    | registerSpecial m b =>
      have hm : m ≠ n := fun hm => hregisters (by simp [RegistryStep.registers?, hm])
      exact (r.findSpecial_registerSpecial m n b).trans (if_neg hm)
    | registerCore =>
      have hnone : BindingForm.ofName? n = none := by
        simpa [RegistryStep.registers?] using hregisters
      refine findSpecial_registerForms_of_ne _ r fun f hf => ?_
      simpa using List.find?_eq_none.1 hnone f hf
    | unregisterSpecial m => exact (r.findSpecial_unregisterSpecial m n).trans (if_neg hremoves)
    | clear => exact absurd trivial hremoves
    | _ => rfl

/-- The entry that a step makes for a name. -/
structure Makes (k : BuiltinKind) (n : Name) (r : Registry F) (step : RegistryStep F)
    (entry : Builtin (k.Body F)) : Prop where
  registers : step.registers? k n = some entry.body
  name_eq : entry.name = n
  next_le : r.next ≤ entry.id
  found : (r.perform step).find k n = some entry

/-- **What one step does to a name.** After a step a name has the entry that the step made for it, or the
one it had if the step did not touch it. -/
theorem find_perform_iff (k : BuiltinKind) (n : Name) (r : Registry F) (step : RegistryStep F)
    (entry : Builtin (k.Body F)) :
    (r.perform step).find k n = some entry ↔
      Makes k n r step entry ∨ r.find k n = some entry ∧ ¬ step.Touches k n := by
  constructor
  · intro h
    cases hbody : step.registers? k n with
    | some body =>
      obtain ⟨id, hid, hfind⟩ := r.find_perform_of_registers hbody
      obtain rfl := Option.some.inj (hfind.symm.trans h)
      exact .inl ⟨hbody, rfl, hid, hfind⟩
    | none =>
      by_cases hremoves : step.Removes k n
      · rw [r.find_perform_of_removes hremoves] at h
        cases h
      · have hnot : ¬ step.Touches k n := by simp [RegistryStep.Touches, hbody, hremoves]
        rw [r.find_perform_of_not_touches hnot] at h
        exact .inr ⟨h, hnot⟩
  · rintro (h | ⟨h, hnot⟩)
    · exact h.found
    · rw [r.find_perform_of_not_touches hnot, h]

/-! ### What a run does -/

/-- **The entries after a run are told by its history.** -/
theorem find_after_iff (k : BuiltinKind) (n : Name) (r : Registry F) (steps : List (RegistryStep F))
    (entry : Builtin (k.Body F)) :
    (r.after steps).find k n = some entry ↔
      (∃ before step since, steps = before ++ step :: since ∧ Makes k n (r.after before) step entry ∧
        ∀ later ∈ since, ¬ later.Touches k n) ∨
      r.find k n = some entry ∧ ∀ step ∈ steps, ¬ step.Touches k n := by
  have hrun := read_foldl_iff (fun r => find r k n) (find_perform_iff k n) entry steps r
  simp only [throughout_const_iff] at hrun
  exact hrun

theorem next_le_after : ∀ (steps : List (RegistryStep F)) (r : Registry F), r.next ≤ (r.after steps).next
  | [], _ => Nat.le_refl _
  | step :: steps, r => Nat.le_trans (r.next_le_perform step) (next_le_after steps (r.perform step))

/-- An entry with a number given before the run was there before the run, and nothing was done to its name
since. -/
theorem find_after_of_id_lt {k : BuiltinKind} {n : Name} {r : Registry F} {steps : List (RegistryStep F)}
    {entry : Builtin (k.Body F)} (h : (r.after steps).find k n = some entry) (hid : entry.id < r.next) :
    r.find k n = some entry ∧ ∀ step ∈ steps, ¬ step.Touches k n := by
  rcases (find_after_iff k n r steps entry).1 h with ⟨before, step, since, -, hmakes, -⟩ | hkept
  · have hnext := Nat.le_trans (next_le_after before r) hmakes.next_le
    omega
  · exact hkept

end Registry

/-! ### Numbers -/

/-- The entries have numbers below `next`, and no two have the same. -/
structure Numbered {β : Type} (entries : NameMap (Builtin β)) (next : Nat) : Prop where
  id_lt : ∀ (n : Name) (e : Builtin β), entries[n]? = some e → e.id < next
  name_eq_of_id : ∀ (n m : Name) (e e' : Builtin β), entries[n]? = some e → entries[m]? = some e' →
    e.id = e'.id → n = m

namespace Numbered

variable {β : Type} {entries : NameMap (Builtin β)} {next : Nat}

theorem empty : Numbered (∅ : NameMap (Builtin β)) next := ⟨by simp, by simp⟩

theorem succ (h : Numbered entries next) : Numbered entries (next + 1) :=
  ⟨fun n e he => Nat.lt_succ_of_lt (h.id_lt n e he), h.name_eq_of_id⟩

theorem insert (h : Numbered entries next) (n : Name) (body : β) :
    Numbered (entries.insert n ⟨next, n, body⟩) (next + 1) := by
  -- an entry is the new one, under its name, or an old one with a smaller number
  have hcases : ∀ (m : Name) (e : Builtin β), (entries.insert n ⟨next, n, body⟩)[m]? = some e →
      n = m ∧ e.id = next ∨ entries[m]? = some e ∧ e.id < next := by
    intro m e he
    rw [Std.ExtTreeMap.getElem?_insert] at he
    simp only [Std.LawfulEqCmp.compare_eq_iff_eq] at he
    by_cases hm : n = m
    · rw [if_pos hm] at he
      exact .inl ⟨hm, by rw [← Option.some.inj he]⟩
    · rw [if_neg hm] at he
      exact .inr ⟨he, h.id_lt m e he⟩
  refine ⟨fun m e he => ?_, fun m m' e e' he he' hid => ?_⟩
  · rcases hcases m e he with ⟨-, hnew⟩ | ⟨-, hold⟩ <;> omega
  · rcases hcases m e he with ⟨rfl, hnew⟩ | ⟨he, hold⟩ <;>
      rcases hcases m' e' he' with ⟨rfl, hnew'⟩ | ⟨he', hold'⟩
    · rfl
    · omega
    · omega
    · exact h.name_eq_of_id m m' e e' he he' hid

theorem erase (h : Numbered entries next) (n : Name) : Numbered (entries.erase n) next := by
  have hold : ∀ (m : Name) (e : Builtin β), (entries.erase n)[m]? = some e → entries[m]? = some e := by
    intro m e he
    rw [Std.ExtTreeMap.getElem?_erase] at he
    exact (Option.ite_none_left_eq_some.1 he).2
  exact ⟨fun m e he => h.id_lt m e (hold m e he),
    fun m m' e e' he he' => h.name_eq_of_id m m' e e' (hold m e he) (hold m' e' he')⟩

end Numbered

namespace Registry

/-- **No number is given twice.** -/
theorem Built.numbered {r : Registry F} (h : r.Built) (k : BuiltinKind) :
    Numbered (r.entries k) r.next := by
  induction h with
  | empty => cases k <;> exact .empty
  | registerFunction n body _ ih =>
    cases k with
    | function => exact ih.insert n body
    | special => exact ih.succ
  | registerSpecial n body _ ih =>
    cases k with
    | function => exact ih.succ
    | special => exact ih.insert n body
  | unregisterFunction n _ ih =>
    cases k with
    | function => exact ih.erase n
    | special => exact ih
  | unregisterSpecial n _ ih =>
    cases k with
    | function => exact ih
    | special => exact ih.erase n
  | clear => cases k <;> exact .empty

theorem Built.perform {r : Registry F} (h : r.Built) (step : RegistryStep F) : (r.perform step).Built := by
  cases step with
  | registerFunction n body => exact h.registerFunction n body
  | registerSpecial n body => exact h.registerSpecial n body
  | registerCore => exact h.registerCore
  | unregisterFunction n => exact h.unregisterFunction n
  | unregisterSpecial n => exact h.unregisterSpecial n
  | clear => exact h.clear
  | findFunction | findSpecial => exact h

theorem Built.after {r : Registry F} (h : r.Built) : ∀ steps : List (RegistryStep F), (r.after steps).Built := by
  intro steps
  induction steps generalizing r with
  | nil => exact h
  | cons step steps ih => exact ih (h.perform step)

theorem Built.name_of_find {r : Registry F} (h : r.Built) {k : BuiltinKind} {n : Name}
    {entry : Builtin (k.Body F)} (hfind : r.find k n = some entry) : entry.name = n := by
  cases k with
  | function => exact h.name_eq.1 n entry hfind
  | special => exact h.name_eq.2 n entry hfind

/-- What is done to one kind does not show in the other. -/
theorem entries_perform_of_kind (r : Registry F) {step : RegistryStep F} {j k : BuiltinKind}
    (hstep : step.kind? = some j) (hne : j ≠ k) : (r.perform step).entries k = r.entries k := by
  cases k with
  | function =>
    cases step with
    | registerFunction | unregisterFunction | findFunction => exact absurd (Option.some.inj hstep).symm hne
    | clear => cases hstep
    | _ => rfl
  | special =>
    cases step with
    | registerSpecial | registerCore | unregisterSpecial | findSpecial =>
      exact absurd (Option.some.inj hstep).symm hne
    | clear => cases hstep
    | _ => rfl

theorem nodup_names (r : Registry F) (k : BuiltinKind) : (r.names k).Nodup := by
  cases k <;> exact Std.ExtTreeMap.nodup_keys

theorem length_names (r : Registry F) (k : BuiltinKind) : (r.names k).length = r.count k := by
  cases k <;> exact Std.ExtTreeMap.length_keys

theorem mem_names_iff (r : Registry F) (k : BuiltinKind) (n : Name) :
    n ∈ r.names k ↔ (r.find k n).isSome := by
  have hkeys : n ∈ r.names k ↔ n ∈ r.entries k := by cases k <;> exact Std.ExtTreeMap.mem_keys
  rw [hkeys, find_eq, Std.ExtTreeMap.mem_iff_isSome_getElem?]

end Registry

open Registry

/-- **A registry is two maps, whatever is done with it.** For each kind of builtin: the entry of a name is
that of its last registration, unless it was unregistered or the registry was cleared since; what is done to
the other kind changes nothing; the names are listed once each. An entry that was looked up at some time has
a number that no other entry has later, and it is still the entry of its name exactly if the name was not
touched since. -/
theorem registry_is_two_maps (k : BuiltinKind) (steps : List (RegistryStep F)) :
    (∀ n before step since body, steps = before ++ step :: since → step.registers? k n = some body →
      (∀ later ∈ since, ¬ later.Touches k n) →
      ∃ id, (empty.after (before ++ [step])).find k n = some ⟨id, n, body⟩ ∧
        (empty.after steps).find k n = some ⟨id, n, body⟩) ∧
    (∀ n, (∀ before step since, steps = before ++ step :: since → (step.registers? k n).isSome →
      ∃ later ∈ since, later.Touches k n) → (empty.after steps).find k n = none) ∧
    (∀ (step : RegistryStep F) j, step.kind? = some j → j ≠ k →
      ((empty.after steps).perform step).entries k = (empty.after steps).entries k) ∧
    ((empty.after steps).names k).Nodup ∧
    ((empty.after steps).names k).length = (empty.after steps).count k ∧
    (∀ n, n ∈ (empty.after steps).names k ↔ ((empty.after steps).find k n).isSome) ∧
    ∀ before since n entry, steps = before ++ since → (empty.after before).find k n = some entry →
      entry.name = n ∧
      (∀ m entry', (empty.after steps).find k m = some entry' → entry'.id = entry.id → entry' = entry) ∧
      ((empty.after steps).holds k entry = true ↔ ∀ step ∈ since, ¬ step.Touches k n) := by
  refine ⟨?_, fun n hnone => ?_, fun step j hstep hne => entries_perform_of_kind _ hstep hne,
    nodup_names _ k, length_names _ k, mem_names_iff _ k, ?_⟩
  · rintro n before step since body rfl hregisters huntouched
    obtain ⟨id, hid, hfind⟩ := (empty.after before).find_perform_of_registers hregisters
    refine ⟨id, ?_, (find_after_iff k n empty _ _).2 (.inl ?_)⟩
    · rw [after_append]
      exact hfind
    · exact ⟨before, step, since, rfl, ⟨hregisters, rfl, hid, hfind⟩, huntouched⟩
  · cases hfind : (empty.after steps).find k n with
    | none => rfl
    | some entry =>
      rcases (find_after_iff k n empty steps entry).1 hfind with
        ⟨before, step, since, hsplit, hmakes, huntouched⟩ | ⟨hempty, -⟩
      · obtain ⟨later, hlater, htouches⟩ :=
          hnone before step since hsplit (Option.isSome_of_eq_some hmakes.registers)
        exact absurd htouches (huntouched later hlater)
      · rw [find_empty] at hempty
        cases hempty
  · rintro before since n entry rfl hfind
    have hbuilt : (empty.after before : Registry F).Built := Built.empty.after before
    have hnumbered := hbuilt.numbered k
    have hname : entry.name = n := hbuilt.name_of_find hfind
    have hid : entry.id < (empty.after before : Registry F).next :=
      hnumbered.id_lt n entry (by rwa [← find_eq])
    rw [after_append]
    refine ⟨hname, fun m entry' hfind' hsame => ?_, ?_⟩
    · obtain ⟨hold, -⟩ := find_after_of_id_lt hfind' (by rwa [hsame])
      have hmn : m = n :=
        hnumbered.name_eq_of_id m n entry' entry (by rwa [← find_eq]) (by rwa [← find_eq]) hsame
      subst hmn
      exact Option.some.inj (hold.symm.trans hfind)
    · rw [holds_eq_true_iff, hname]
      constructor
      · rintro ⟨entry', hfind', hsame⟩
        exact (find_after_of_id_lt hfind' (by rwa [hsame])).2
      · intro huntouched
        exact ⟨entry, (find_after_iff k n _ since entry).2 (.inr ⟨hfind, huntouched⟩), rfl⟩

/-- The forms that bind names, and a function `put`. -/
def firstSteps : List (RegistryStep Unit) := [.registerCore, .registerFunction (utf8 "put") ()]

/-- The function `put` is unregistered and registered again, with the same body. -/
def laterSteps : List (RegistryStep Unit) :=
  [.unregisterFunction (utf8 "put"), .registerFunction (utf8 "put") ()]

theorem registry_is_two_maps_registeredAgain :
    (Registry.empty.after (firstSteps ++ laterSteps.take 1)).find .function (utf8 "put") = none ∧
    ((Registry.empty.after firstSteps).perform (.unregisterFunction (utf8 "put"))).entries .special =
      (Registry.empty.after firstSteps).entries .special ∧
    ∃ put var, (Registry.empty.after firstSteps).find .function (utf8 "put") = some put ∧
      (Registry.empty.after firstSteps).find .special (utf8 "var") = some var ∧
      (Registry.empty.after (firstSteps ++ laterSteps)).holds .function put = false ∧
      (Registry.empty.after (firstSteps ++ laterSteps)).holds .special var = true := by
  have hgone : ∀ before step since, firstSteps ++ laterSteps.take 1 = before ++ step :: since →
      (step.registers? .function (utf8 "put")).isSome →
      ∃ later ∈ since, later.Touches .function (utf8 "put") := by
    intro before step since hsplit hsome
    -- the last step of all unregisters, so it comes after any that registers
    rcases List.eq_nil_or_concat since with rfl | ⟨since, last, rfl⟩
    · obtain ⟨-, hlast⟩ := List.append_inj' hsplit rfl
      rw [← (List.cons.inj hlast).1] at hsome
      cases hsome
    · rw [List.concat_eq_append, ← List.cons_append, ← List.append_assoc] at hsplit
      obtain ⟨-, hlast⟩ := List.append_inj' hsplit rfl
      rw [List.concat_eq_append, ← (List.cons.inj hlast).1]
      exact ⟨_, List.mem_append_right _ List.mem_cons_self, .inr rfl⟩
  obtain ⟨hput, -, -⟩ := registry_is_two_maps .function firstSteps
  obtain ⟨hvar, -, hapart, -⟩ := registry_is_two_maps .special firstSteps
  obtain ⟨-, hnone, -⟩ := registry_is_two_maps .function (firstSteps ++ laterSteps.take 1)
  obtain ⟨-, -, -, -, -, -, hheldPut⟩ := registry_is_two_maps .function (firstSteps ++ laterSteps)
  obtain ⟨-, -, -, -, -, -, hheldVar⟩ := registry_is_two_maps .special (firstSteps ++ laterSteps)
  obtain ⟨i, -, hput⟩ := hput (utf8 "put") [.registerCore] (.registerFunction (utf8 "put") ()) [] ()
    rfl rfl (List.forall_mem_nil _)
  obtain ⟨j, -, hvar⟩ := hvar (utf8 "var") [] .registerCore [.registerFunction (utf8 "put") ()] compileVar
    rfl rfl (by simp [RegistryStep.Touches, RegistryStep.registers?, RegistryStep.Removes])
  obtain ⟨-, -, hcurrentPut⟩ := hheldPut firstSteps laterSteps (utf8 "put") _ rfl hput
  obtain ⟨-, -, hcurrentVar⟩ := hheldVar firstSteps laterSteps (utf8 "var") _ rfl hvar
  refine ⟨hnone _ hgone, hapart _ .function rfl (by decide), _, _, hput, hvar, ?_, hcurrentVar.2 ?_⟩
  · rw [Bool.eq_false_iff]
    intro hcurrent
    exact hcurrentPut.1 hcurrent (.unregisterFunction (utf8 "put")) List.mem_cons_self (.inr rfl)
  · simp [laterSteps, RegistryStep.Touches, RegistryStep.registers?, RegistryStep.Removes]

end ShellOps
