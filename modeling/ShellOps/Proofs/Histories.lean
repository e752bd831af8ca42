/-
# What the last write left

A system changes by steps, and a cell is a part of its state that a step writes, empties or leaves alone.
After a whole run the cell holds what the last step that wrote it wrote, if every later step left it alone;
a cell that no step wrote holds what it held at the start. So a cell can be told from the history of the
run.
-/

namespace ShellOps

section

variable {σ α β : Type} (step : σ → α → σ)

/-- Every step of a run, taken at the state it comes to, has the property `P`. -/
def Throughout (P : σ → α → Prop) : σ → List α → Prop
  | _, [] => True
  | s, a :: as => P s a ∧ Throughout P (step s a) as

/-- A property of the steps alone does not need the states. -/
theorem throughout_const_iff (P : α → Prop) : ∀ (s : σ) (as : List α),
    Throughout step (fun _ a => P a) s as ↔ ∀ a ∈ as, P a
  | _, [] => ⟨fun _ => List.forall_mem_nil P, fun _ => trivial⟩
  | s, a :: as => by
    rw [List.forall_mem_cons]
    exact and_congr_right fun _ => throughout_const_iff P (step s a) as

variable {step} {Writes : σ → α → β → Prop} {Leaves : σ → α → Prop} (read : σ → Option β)

/-- **A cell holds what was written last.** -/
theorem read_foldl_iff
    (hstep : ∀ s a b, read (step s a) = some b ↔ Writes s a b ∨ read s = some b ∧ Leaves s a) (b : β) :
    ∀ (as : List α) (s : σ),
      read (as.foldl step s) = some b ↔
        (∃ before a after, as = before ++ a :: after ∧ Writes (before.foldl step s) a b ∧
          Throughout step Leaves ((before ++ [a]).foldl step s) after) ∨
        read s = some b ∧ Throughout step Leaves s as
  | [], s => by simp [Throughout]
  | a :: as, s => by
    rw [List.foldl_cons, read_foldl_iff hstep b as, hstep]
    constructor
    · rintro (⟨before, a', after, rfl, hw, hafter⟩ | ⟨hw | ⟨hread, hleaves⟩, hafter⟩)
      · exact .inl ⟨a :: before, a', after, rfl, hw, hafter⟩
      · exact .inl ⟨[], a, as, rfl, hw, hafter⟩
      · exact .inr ⟨hread, hleaves, hafter⟩
    · rintro (⟨before, a', after, heq, hw, hafter⟩ | ⟨hread, hleaves, hafter⟩)
      · -- the write is the first step, or one of the rest
        cases before with
        | nil =>
          obtain ⟨rfl, rfl⟩ := List.cons.inj heq
          exact .inr ⟨.inl hw, hafter⟩
        | cons _ before =>
          obtain ⟨rfl, rfl⟩ := List.cons.inj heq
          exact .inl ⟨before, a', after, rfl, hw, hafter⟩
      · exact .inr ⟨.inr ⟨hread, hleaves⟩, hafter⟩

end

end ShellOps
