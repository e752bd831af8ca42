/-
# Opening the slots of a port table

The slots of a table are opened one by one, from the lowest descriptor up, and the first one that
fails ends it. What one slot can do is said once (`SlotRun`): a file slot evaluates its word, makes a
channel and opens the file, in this order, and any of the three can fail; every other slot reads a port
of the evaluator at most. A table that opens is a run of its slots (`TableOpened`), and one that fails
is such a run of its lower slots and a slot that fails.

An `Account` tells which handles (files, channels) are in use. Opening a slot brings into use what its
port owns: a new file and a new channel for a file slot, nothing for any other. So the ports of a table
own handles that are all different and were not in use before (`TableOpened.gains`).
-/
import Mathlib.Data.List.Forall2
import Mathlib.Data.List.Nodup
import Mathlib.Data.Set.Defs
import ShellOps.Proofs.Running

namespace ShellOps

variable {w : World} {F C H : Type}

/-! ### Handles -/

/-- A file or a channel. -/
inductive Handle (C : Type)
  | file (fd : Int)
  | channel (c : C)
deriving DecidableEq

/-- The descriptor of a file. -/
def Handle.file? : Handle C → Option Int
  | file fd => some fd
  | channel _ => none

/-- What closing the port closes, in order. -/
def Port.owned (p : Port C) : List (Handle C) :=
  (p.ownedFile.map .file).toList ++ (p.ownedChannel.map .channel).toList

/-- The port of a file that was opened for it. -/
def Port.ofFile (fd : Int) (c : C) : Port C :=
  { fd, channel := some c, closeFile := true, closeChannel := true }

@[simp] theorem Port.owned_share (p : Port C) : p.share.owned = [] := by simp [owned]

theorem Port.owned_ofFile {fd : Int} (h : 0 ≤ fd) (c : C) :
    (ofFile fd c).owned = [.file fd, .channel c] := by
  simp [owned, ofFile, ownedFile, ownedChannel, h]

/-- The files that ports own, among all that they own. -/
theorem filterMap_file_owned (ports : List (Port C)) :
    (ports.flatMap Port.owned).filterMap Handle.file? = ports.filterMap Port.ownedFile := by
  induction ports with
  | nil => rfl
  | cons p ports ih =>
    rw [List.flatMap_cons, List.filterMap_append, ih, Port.owned]
    cases hfile : p.ownedFile <;> cases p.ownedChannel <;> simp [hfile, Handle.file?]

/-! ### What a slot can do -/

/-- The slot opens a file. -/
def opensFile : Option (PortOp F) → Bool
  | some (.file ..) => true
  | _ => false

/-- The descriptor whose port a slot gets a copy of: its source, or for a slot that is left alone its
own descriptor, unless such slots are to be closed. -/
def copiedFrom (unset : PortPolicy) (fd : Nat) : Option (PortOp F) → Option Int
  | some (.dup source _) => some source
  | none => if unset = .inherit then some fd else none
  | _ => none

theorem opensFile_of_copiedFrom {unset : PortPolicy} {fd : Nat} {slot : Option (PortOp F)} {n : Int}
    (h : copiedFrom unset fd slot = some n) : opensFile slot = false := by
  match slot with
  | none | some (.dup ..) | some (.close _) => rfl
  | some (.file ..) => cases h

/-- The step that opens one slot. -/
def slotStep (ev : Evaluator w F) (unset : PortPolicy) (fd : Nat) (slot : Option (PortOp F)) :
    Run w (Port w.Channel) :=
  (attachStep ev slot).getD (attachUnset ev unset fd)

/-- All that opening the slot at descriptor `fd` can do, from the state `σ` to the state `σ'`. -/
inductive SlotRun (ev : Evaluator w F) (unset : PortPolicy) (fd : Nat) :
    Option (PortOp F) → w.State → Except EvalError (Port w.Channel) → w.State → Prop
  | file {op flags mode pos σ vs σ₁ c σ₂ path n σ'} : Run.outcome (op.eval ev) σ = (.ok vs, σ₁) →
    Run.outcome ev.makeChannel σ₁ = (.ok c, σ₂) →
    Run.outcome (ev.openFile path (flags ||| closeOnExec) mode) σ₂ = (.ok (.ok n), σ') →
    SlotRun ev unset fd (some (.file op flags mode pos)) σ (.ok (.ofFile n c)) σ'
  | badWord {op flags mode pos σ r e σ'} : Run.outcome (op.eval ev) σ = (r, σ') →
    SlotRun ev unset fd (some (.file op flags mode pos)) σ (.error e) σ'
  | noChannel {op flags mode pos σ vs σ₁ e σ'} : Run.outcome (op.eval ev) σ = (.ok vs, σ₁) →
    Run.outcome ev.makeChannel σ₁ = (.error e, σ') →
    SlotRun ev unset fd (some (.file op flags mode pos)) σ (.error e) σ'
  | noFile {op flags mode pos σ vs σ₁ c σ₂ path r e σ'} : Run.outcome (op.eval ev) σ = (.ok vs, σ₁) →
    Run.outcome ev.makeChannel σ₁ = (.ok c, σ₂) →
    Run.outcome (ev.openFile path (flags ||| closeOnExec) mode) σ₂ = (r, σ') → (∀ n, r ≠ .ok (.ok n)) →
    SlotRun ev unset fd (some (.file op flags mode pos)) σ (.error e) σ'
  | copy {slot n q σ σ'} : copiedFrom unset fd slot = some n →
    Run.outcome (ev.port n) σ = (.ok (some q), σ') → SlotRun ev unset fd slot σ (.ok q.share) σ'
  | nothingThere {σ σ'} : unset = .inherit → Run.outcome (ev.port fd) σ = (.ok none, σ') →
    SlotRun ev unset fd none σ (.ok .empty) σ'
  | noPort {slot n r e σ σ'} : copiedFrom unset fd slot = some n →
    Run.outcome (ev.port n) σ = (r, σ') → SlotRun ev unset fd slot σ (.error e) σ'
  | empty {slot σ} : opensFile slot = false → copiedFrom unset fd slot = none →
    SlotRun ev unset fd slot σ (.ok .empty) σ

section

variable {ev : Evaluator w F} {unset : PortPolicy} {fd : Nat} {σ σ' : w.State}
variable {r : Except EvalError (Port w.Channel)}

theorem slotRun_of_attachFile {op : ValuesOp F} {flags : Int32} {mode : UInt32} {pos : Pos}
    (h : Run.outcome (attachFile ev (op.pos, op.eval ev) flags mode pos) σ = (r, σ')) :
    SlotRun ev unset fd (some (.file op flags mode pos)) σ r σ' := by
  unfold attachFile at h
  rcases Run.of_outcome_bind h with ⟨e, hword, rfl⟩ | ⟨vs, σ₁, hword, h⟩
  · exact .badWord hword
  have hbad : ∀ {e}, (r, σ') = (.error e, σ₁) →
      SlotRun ev unset fd (some (.file op flags mode pos)) σ r σ' := by
    intro e heq
    obtain ⟨rfl, rfl⟩ := Prod.mk.inj heq
    exact .badWord hword
  rcases vs with _ | ⟨name, _ | ⟨_, _⟩⟩
  · exact hbad h.symm
  · rw [single, pure_bind] at h
    by_cases hkind : ev.typeOf name = .string
    · simp only [hkind, ne_eq, not_true_eq_false, if_false] at h
      rcases Run.of_outcome_bind h with ⟨e, hchannel, rfl⟩ | ⟨c, σ₂, hchannel, h⟩
      · exact .noChannel hword hchannel
      · rcases Run.of_outcome_bind h with ⟨e, hopen, rfl⟩ | ⟨opened, σ₃, hopen, h⟩
        · exact .noFile hword hchannel hopen fun n hn => by cases hn
        · cases opened with
          | ok n =>
            obtain ⟨rfl, rfl⟩ := Run.of_outcome_pure h
            exact .file hword hchannel hopen
          | error reason =>
            obtain ⟨rfl, rfl⟩ := Run.of_outcome_fail h
            exact .noFile hword hchannel hopen fun n hn => by cases hn
    · rw [if_pos hkind] at h
      exact hbad h.symm
  · exact hbad h.symm

/-- Opening a slot does one of the things that a slot can do. -/
theorem slotRun_of_outcome {slot : Option (PortOp F)}
    (h : Run.outcome (slotStep ev unset fd slot) σ = (r, σ')) : SlotRun ev unset fd slot σ r σ' := by
  unfold slotStep at h
  match slot with
  | some (.close pos) =>
    rw [attachStep, PortOp.attach, Option.getD_some] at h
    obtain ⟨rfl, rfl⟩ := Run.of_outcome_pure h
    exact .empty rfl rfl
  | some (.dup source pos) =>
    rw [attachStep, PortOp.attach, Option.getD_some, attachCopy] at h
    rcases Run.of_outcome_bind h with ⟨e, hport, rfl⟩ | ⟨q, σ₁, hport, h⟩
    · exact .noPort rfl hport
    · cases q with
      | none =>
        obtain ⟨rfl, rfl⟩ := Run.of_outcome_fail h
        exact .noPort rfl hport
      | some q =>
        obtain ⟨rfl, rfl⟩ := Run.of_outcome_pure h
        exact .copy rfl hport
  | some (.file op flags mode pos) =>
    rw [attachStep, PortOp.attach, Option.getD_some] at h
    exact slotRun_of_attachFile h
  | none =>
    rw [attachStep, Option.getD_none] at h
    cases unset with
    | close =>
      obtain ⟨rfl, rfl⟩ := Run.of_outcome_pure h
      exact .empty rfl rfl
    | inherit =>
      rcases Run.of_outcome_bind h with ⟨e, hport, rfl⟩ | ⟨q, σ₁, hport, h⟩
      · exact .noPort rfl hport
      · cases q with
        | none =>
          obtain ⟨rfl, rfl⟩ := Run.of_outcome_pure h
          exact .nothingThere rfl hport
        | some q =>
          obtain ⟨rfl, rfl⟩ := Run.of_outcome_pure h
          exact .copy rfl hport

end

/-! ### Tables -/

/-- The slots from descriptor `fd` on are opened one by one, and each gives its port. -/
inductive TableOpened (ev : Evaluator w F) (unset : PortPolicy) :
    Nat → List (Option (PortOp F)) → w.State → List (Port w.Channel) → w.State → Prop
  | nil {fd σ} : TableOpened ev unset fd [] σ [] σ
  | cons {fd slot slots σ p τ ports σ'} : SlotRun ev unset fd slot σ (.ok p) τ →
    TableOpened ev unset (fd + 1) slots τ ports σ' →
    TableOpened ev unset fd (slot :: slots) σ (p :: ports) σ'

section

variable {ev : Evaluator w F} {unset : PortPolicy} {σ σ' : w.State}

theorem attachAll_cons (slot : Option (PortOp F)) (slots : List (Option (PortOp F))) (fd : Nat) :
    attachAll ev unset fd (attachSteps ev (slot :: slots)) = do
      let p ← slotStep ev unset fd slot
      return p :: (← attachAll ev unset (fd + 1) (attachSteps ev slots)) := by
  rw [attachSteps, attachAll]
  rfl

/-- A table that cannot be opened has a first slot that fails. -/
theorem exists_failed_slot {slots : List (Option (PortOp F))} {fd : Nat} {e : EvalError}
    (h : Run.outcome (attachAll ev unset fd (attachSteps ev slots)) σ = (.error e, σ')) :
    ∃ lower slot upper ports τ, slots = lower ++ slot :: upper ∧
      TableOpened ev unset fd lower σ ports τ ∧
      Run.outcome (slotStep ev unset (fd + lower.length) slot) τ = (.error e, σ') := by
  induction slots generalizing fd σ with
  | nil =>
    rw [attachSteps, attachAll] at h
    cases (Run.of_outcome_pure h).1
  | cons slot slots ih =>
    rw [attachAll_cons] at h
    rcases Run.of_outcome_bind h with ⟨e', hslot, he⟩ | ⟨p, τ, hslot, h⟩
    · obtain rfl := Except.error.inj he
      exact ⟨[], slot, slots, [], σ, rfl, .nil, hslot⟩
    rcases Run.of_outcome_bind h with ⟨e', hrest, he⟩ | ⟨rest, τ', -, h⟩
    · obtain rfl := Except.error.inj he
      obtain ⟨lower, slot', upper, ports, τ', rfl, hlower, hfails⟩ := ih hrest
      have hopened := TableOpened.cons (slotRun_of_outcome hslot) hlower
      refine ⟨slot :: lower, slot', upper, p :: ports, τ', rfl, hopened, ?_⟩
      rwa [List.length_cons, Nat.add_comm lower.length, ← Nat.add_assoc]
    · cases (Run.of_outcome_pure h).1

end

/-! ### Handles in use -/

/-- A way to read the states of a world: whether a state is one that can come up, and which handles
are in use in it. -/
structure Account (w : World) (H : Type) where
  valid : w.State → Prop
  inUse : w.State → Set H

/-- From `σ` to `σ'` the handles `xs` come into use. They are all different and none was in use, and
nothing that was in use goes out of use; if the account is to be `exact`, nothing else comes into use
either. -/
structure Account.Gains (acc : Account w H) (exact : Prop) (σ : w.State) (xs : List H)
    (σ' : w.State) : Prop where
  valid : acc.valid σ'
  nodup : xs.Nodup
  fresh : ∀ x ∈ xs, x ∉ acc.inUse σ
  keeps : ∀ x ∈ acc.inUse σ, x ∈ acc.inUse σ'
  gained : ∀ x ∈ xs, x ∈ acc.inUse σ'
  only : exact → ∀ x ∈ acc.inUse σ', x ∈ acc.inUse σ ∨ x ∈ xs

namespace Account.Gains

variable {acc : Account w H} {exact : Prop} {σ τ σ' : w.State} {xs ys : List H}

/-- Steps that change nothing the account can see. -/
theorem of_eq (h : acc.valid σ') (heq : acc.inUse σ' = acc.inUse σ) : acc.Gains exact σ [] σ' :=
  ⟨h, List.nodup_nil, List.forall_mem_nil _, fun _ hx => heq ▸ hx, List.forall_mem_nil _,
    fun _ _ hx => .inl (heq ▸ hx)⟩

/-- Steps that bring one handle into use. -/
theorem one {x : H} (h : acc.valid σ') (hfresh : x ∉ acc.inUse σ)
    (hiff : ∀ y, y ∈ acc.inUse σ' ↔ y ∈ acc.inUse σ ∨ y = x) : acc.Gains exact σ [x] σ' where
  valid := h
  nodup := List.nodup_singleton x
  fresh y hy := by rwa [List.mem_singleton.1 hy]
  keeps y hy := (hiff y).2 (.inl hy)
  gained y hy := (hiff y).2 (.inr (List.mem_singleton.1 hy))
  only _ y hy := ((hiff y).1 hy).imp_right List.mem_singleton.2

theorem refl (h : acc.valid σ) : acc.Gains exact σ [] σ := of_eq h rfl

theorem trans (h₁ : acc.Gains exact σ xs τ) (h₂ : acc.Gains exact τ ys σ') :
    acc.Gains exact σ (xs ++ ys) σ' where
  valid := h₂.valid
  nodup := by
    refine List.nodup_append.2 ⟨h₁.nodup, h₂.nodup, fun x hx y hy hxy => ?_⟩
    subst hxy
    exact h₂.fresh x hy (h₁.gained x hx)
  fresh x hx := by
    rcases List.mem_append.1 hx with hx | hx
    · exact h₁.fresh x hx
    · exact fun hσ => h₂.fresh x hx (h₁.keeps x hσ)
  keeps x hx := h₂.keeps x (h₁.keeps x hx)
  gained x hx := by
    rcases List.mem_append.1 hx with hx | hx
    · exact h₂.keeps x (h₁.gained x hx)
    · exact h₂.gained x hx
  only hexact x hx := by
    rcases h₂.only hexact x hx with hτ | hy
    · rcases h₁.only hexact x hτ with hσ | hx
      · exact .inl hσ
      · exact .inr (List.mem_append_left ys hx)
    · exact .inr (List.mem_append_right xs hy)

theorem mono (h : acc.Gains True σ xs σ') : acc.Gains exact σ xs σ' :=
  { h with only := fun _ => h.only trivial }

theorem perm (h : acc.Gains exact σ xs σ') (hperm : xs.Perm ys) : acc.Gains exact σ ys σ' where
  valid := h.valid
  nodup := hperm.nodup_iff.1 h.nodup
  fresh x hx := h.fresh x (hperm.mem_iff.2 hx)
  keeps := h.keeps
  gained x hx := h.gained x (hperm.mem_iff.2 hx)
  only hexact x hx := (h.only hexact x hx).imp_right hperm.mem_iff.1

end Account.Gains

/-- The channel that a try to make one has made. -/
def madeBy : Except EvalError C → List (Handle C)
  | .ok c => [.channel c]
  | .error _ => []

/-- The file that a try to open one has opened. -/
def openedBy : Except EvalError (Except OpenError Int) → List (Handle C)
  | .ok (.ok fd) => [.file fd]
  | _ => []

/-- The account, which keeps the handles that `sees` tells, fits the evaluator: a channel that is made
and a file that is opened were not in use, are afterwards, and nothing else changes. -/
structure Account.Fits (acc : Account w H) (sees : Handle w.Channel → Option H)
    (ev : Evaluator w F) : Prop where
  port : ∀ {fd σ r σ'}, acc.valid σ → Run.outcome (ev.port fd) σ = (r, σ') → acc.Gains True σ [] σ'
  makeChannel : ∀ {σ r σ'}, acc.valid σ → Run.outcome ev.makeChannel σ = (r, σ') →
    acc.Gains True σ ((madeBy r).filterMap sees) σ'
  openFile : ∀ {path flags mode σ r σ'}, acc.valid σ →
    Run.outcome (ev.openFile path flags mode) σ = (r, σ') →
    acc.Gains True σ ((openedBy r).filterMap sees) σ'
  nonneg : ∀ {path flags mode σ fd σ'}, acc.valid σ →
    Run.outcome (ev.openFile path flags mode) σ = (.ok (.ok fd), σ') → 0 ≤ fd

/-- Whether it succeeds or not, the step takes nothing out of use that was in use before it; if the
account is to be `exact`, it brings nothing into use either. -/
def Account.Leaves (acc : Account w H) (exact : Prop) {α : Type} (x : Run w α) : Prop :=
  ∀ ⦃σ r σ'⦄, acc.valid σ → Run.outcome x σ = (r, σ') → acc.Gains exact σ [] σ'

/-- The step that evaluates a file name of the slots has the property, whichever name it is. -/
def EachName (P : Run w (List w.Value) → Prop) (ev : Evaluator w F) (slots : List (Option (PortOp F))) :
    Prop :=
  ∀ op flags mode pos, some (.file op flags mode pos) ∈ slots → P (op.eval ev)

theorem EachName.mono {P : Run w (List w.Value) → Prop} {ev : Evaluator w F}
    {slots slots' : List (Option (PortOp F))} (h : EachName P ev slots) (hsub : slots' ⊆ slots) :
    EachName P ev slots' :=
  fun op flags mode pos hop => h op flags mode pos (hsub hop)

/-- The port of a file slot owns a file and a channel; that of any other slot owns nothing. -/
def OwnsAs (slot : Option (PortOp F)) (p : Port C) : Prop :=
  if opensFile slot then ∃ n c, 0 ≤ n ∧ p = .ofFile n c else p.owned = []

section

variable {acc : Account w H} {sees : Handle w.Channel → Option H} {ev : Evaluator w F} {exact : Prop}
variable {unset : PortPolicy} {fd : Nat} {slot : Option (PortOp F)} {slots : List (Option (PortOp F))}
variable {σ σ' : w.State}

/-- A slot that opens brings into use what its port owns: a file and a channel if it is a file slot,
and otherwise nothing. -/
theorem SlotRun.gains (hev : acc.Fits sees ev) (hnames : EachName (acc.Leaves exact) ev [slot])
    {p : Port w.Channel} (h : SlotRun ev unset fd slot σ (.ok p) σ') (hσ : acc.valid σ) :
    acc.Gains exact σ (p.owned.filterMap sees) σ' ∧ OwnsAs slot p := by
  generalize hr : Except.ok p = r at h
  cases h with
  | @file op flags mode pos _ vs σ₁ c σ₂ path n _ hword hchannel hopen =>
    obtain rfl := Except.ok.inj hr
    have hfirst := hnames op flags mode pos List.mem_cons_self hσ hword
    have hsecond := hev.makeChannel hfirst.valid hchannel
    have hthird := hev.openFile hsecond.valid hopen
    have hn : 0 ≤ n := hev.nonneg hsecond.valid hopen
    refine ⟨?_, n, c, hn, rfl⟩
    rw [Port.owned_ofFile hn]
    refine (hfirst.trans (hsecond.mono.trans hthird.mono)).perm ?_
    rw [List.nil_append, ← List.filterMap_append]
    exact (List.Perm.swap (Handle.file n) (Handle.channel c) []).filterMap sees
  | copy hfrom hport =>
    obtain rfl := Except.ok.inj hr
    rw [OwnsAs, opensFile_of_copiedFrom hfrom, Port.owned_share]
    exact ⟨(hev.port hσ hport).mono, rfl⟩
  | nothingThere _ hport =>
    obtain rfl := Except.ok.inj hr
    exact ⟨(hev.port hσ hport).mono, rfl⟩
  | empty hslot _ =>
    obtain rfl := Except.ok.inj hr
    rw [OwnsAs, hslot]
    exact ⟨.refl hσ, rfl⟩
  | badWord | noChannel | noFile | noPort => cases hr

/-- A slot that fails brings no file into use; it may have made a channel. -/
theorem SlotRun.gains_of_error (hev : acc.Fits sees ev)
    (hnames : EachName (acc.Leaves exact) ev [slot]) {e : EvalError}
    (h : SlotRun ev unset fd slot σ (.error e) σ') (hσ : acc.valid σ) :
    ∃ cs : List w.Channel, acc.Gains exact σ ((cs.map Handle.channel).filterMap sees) σ' := by
  generalize hr : Except.error e = r at h
  cases h with
  | badWord hword => exact ⟨[], hnames _ _ _ _ List.mem_cons_self hσ hword⟩
  | noChannel hword hchannel =>
    have hfirst := hnames _ _ _ _ List.mem_cons_self hσ hword
    exact ⟨[], hfirst.trans (hev.makeChannel hfirst.valid hchannel).mono⟩
  | @noFile op flags mode pos _ vs σ₁ c σ₂ path r _ _ hword hchannel hopen hfails =>
    have hfirst := hnames _ _ _ _ List.mem_cons_self hσ hword
    have hsecond := hev.makeChannel hfirst.valid hchannel
    have hthird := hev.openFile hsecond.valid hopen
    have hnone : (openedBy r : List (Handle w.Channel)) = [] := by
      match r with
      | .ok (.ok n) => exact absurd rfl (hfails n)
      | .ok (.error _) | .error _ => rfl
    rw [hnone] at hthird
    refine ⟨[c], (hfirst.trans (hsecond.mono.trans hthird.mono)).perm ?_⟩
    rw [List.nil_append, ← List.filterMap_append]
    exact .refl _
  | noPort _ hport => exact ⟨[], (hev.port hσ hport).mono⟩
  | file | copy | nothingThere | empty => cases hr

/-- **What a table brings into use** is what its ports own. -/
theorem TableOpened.gains {ports : List (Port w.Channel)} (hev : acc.Fits sees ev)
    (hnames : EachName (acc.Leaves exact) ev slots) (h : TableOpened ev unset fd slots σ ports σ')
    (hσ : acc.valid σ) :
    acc.Gains exact σ ((ports.flatMap Port.owned).filterMap sees) σ' ∧
      List.Forall₂ OwnsAs slots ports := by
  induction h with
  | nil => exact ⟨.refl hσ, .nil⟩
  | cons hslot _ ih =>
    obtain ⟨hfirst, howns⟩ := hslot.gains hev (hnames.mono (by simp)) hσ
    obtain ⟨hrest, hall⟩ := ih (hnames.mono (List.subset_cons_self _ _)) hfirst.valid
    rw [List.flatMap_cons, List.filterMap_append]
    exact ⟨hfirst.trans hrest, .cons howns hall⟩

/-- A table gives as many files as it has file slots. -/
theorem length_ownedFiles {ports : List (Port C)} (h : List.Forall₂ OwnsAs slots ports) :
    (ports.filterMap Port.ownedFile).length = slots.countP opensFile := by
  induction h with
  | nil => rfl
  | @cons slot p slots ports howns _ ih =>
    rw [List.countP_cons, List.filterMap_cons, ← ih]
    unfold OwnsAs at howns
    cases hslot : opensFile slot with
    | true =>
      rw [hslot, if_pos rfl] at howns
      obtain ⟨n, c, hn, rfl⟩ := howns
      simp [Port.ofFile, Port.ownedFile, hn]
    | false =>
      have hnone : p.ownedFile = none := by
        rw [hslot] at howns
        cases hfile : p.ownedFile <;> simp [Port.owned, hfile] at howns ⊢
      simp [hnone]

end

end ShellOps
