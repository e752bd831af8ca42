/-
# Statistics count ops

The statistics of a compilation are kept by the way, some before the thing they count is built and some
after it. They come to the number of ops of each kind in the op of the script: its forms, those that
stand for a sigil among them, its closures, the names these capture, and its references to variables,
wherever in the op they stand. Only the op of a redirection that a later one replaces is counted and
then dropped, so where a form redirects a descriptor twice the statistics may come to more.

Each way of building an op adds to the statistics what the op has more than its parts (`tallies`).
-/
import Mathlib.Algebra.BigOperators.Group.List.Basic
import Mathlib.Algebra.GroupWithZero.Nat
import Mathlib.Data.List.Nodup
import ShellOps.Proofs.OpShape

namespace ShellOps

variable {α F : Type}

/-! ### What is counted -/

/-- A number that is kept about a compilation. -/
inductive Statistic
  | forms | closures | captures | references
deriving DecidableEq

namespace Statistic

/-- What the statistics of a compilation say. A sigil stands for a form. -/
def reading : Statistic → Stats → Nat
  | forms, s => s.forms + s.sigils
  | closures, s => s.closures
  | captures, s => s.captures
  | references, s => s.references

/-- What one op counts for, without the ops it is made of. -/
def weight : Statistic → AnyOp F → Nat
  | forms, .form _ => 1
  | closures, .values (.closure ..) => 1
  | captures, .values (.closure _ names _ _) => names.size
  | references, .values (.variable ..) => 1
  | _, _ => 0

end Statistic

/-! ### Every op of a tree, with repetitions -/

mutual

/-- The op and every op that stands in it, as often as it stands there. -/
def ValuesOp.everyOp : ValuesOp F → List (AnyOp F)
  | .missing => [.values .missing]
  | .string text pos => [.values (.string text pos)]
  | .variable n pos => [.values (.variable n pos)]
  | .compound parts pos => .values (.compound parts pos) :: everyOpIn parts
  | .spaced items pos => .values (.spaced items pos) :: everyOpIn items
  | .subscript left index pos => .values (.subscript left index pos) :: (left.everyOp ++ index.everyOp)
  | .table items keys values pos =>
    .values (.table items keys values pos) :: (items.everyOp ++ (everyOpIn keys ++ everyOpIn values))
  | .closure params captures chunk pos => .values (.closure params captures chunk pos) :: chunk.everyOp
  | .chanCapture inner pos => .values (.chanCapture inner pos) :: inner.everyOp
  | .pipeline stages pos => .values (.pipeline stages pos) :: everyOpInStages stages
  | .chunk pipelines pos => .values (.chunk pipelines pos) :: everyOpIn pipelines
  | .var names values pos => .values (.var names values pos) :: values.everyOp
  | .set names values pos => .values (.set names values pos) :: values.everyOp
  | .del names pos => [.values (.del names pos)]
  | .fn name closure pos => .values (.fn name closure pos) :: closure.everyOp

def everyOpIn : List (ValuesOp F) → List (AnyOp F)
  | [] => []
  | op :: ops => op.everyOp ++ everyOpIn ops

def FormOp.everyOp : FormOp F → List (AnyOp F)
  | ⟨command, args, ports, resolution, unset, pos⟩ =>
    .form ⟨command, args, ports, resolution, unset, pos⟩ ::
      (command.everyOp ++ (args.everyOp ++ (resolution.everyOp ++ everyOpInPorts ports)))

def everyOpInStages : List (Option (FormOp F)) → List (AnyOp F)
  | [] => []
  | f :: fs => everyOpInStage f ++ everyOpInStages fs

def everyOpInStage : Option (FormOp F) → List (AnyOp F)
  | none => []
  | some f => f.everyOp

def Resolution.everyOp : Resolution F → List (AnyOp F)
  | ⟨_, _, _, op⟩ => op.everyOp

def everyOpInPorts : List (Option (PortOp F)) → List (AnyOp F)
  | [] => []
  | p :: ps => everyOpInPort p ++ everyOpInPorts ps

def everyOpInPort : Option (PortOp F) → List (AnyOp F)
  | none => []
  | some p => p.everyOp

def PortOp.everyOp : PortOp F → List (AnyOp F)
  | .close pos => [.port (.close pos)]
  | .dup source pos => [.port (.dup source pos)]
  | .file filename flags mode pos => .port (.file filename flags mode pos) :: filename.everyOp

end

/-- The op and every op that stands in it, as often as it stands there. -/
def AnyOp.everyOp : AnyOp F → List (AnyOp F)
  | .values op => op.everyOp
  | .form op => op.everyOp
  | .port op => op.everyOp

theorem everyOpIn_eq (ops : List (ValuesOp F)) :
    everyOpIn ops = (ops.map AnyOp.values).flatMap AnyOp.everyOp := by
  induction ops with
  | nil => simp only [everyOpIn, List.map_nil, List.flatMap_nil]
  | cons op ops ih =>
    rw [everyOpIn, ih, List.map_cons, List.flatMap_cons]
    rfl

theorem everyOpInStages_eq (stages : List (Option (FormOp F))) :
    everyOpInStages stages = (stages.reduceOption.map AnyOp.form).flatMap AnyOp.everyOp := by
  induction stages with
  | nil => simp only [everyOpInStages, List.reduceOption_nil, List.map_nil, List.flatMap_nil]
  | cons stage stages ih =>
    rw [everyOpInStages, ih]
    cases stage with
    | none =>
      rw [everyOpInStage, List.reduceOption_cons_of_none]
      rfl
    | some f =>
      rw [everyOpInStage, List.reduceOption_cons_of_some]
      rfl

theorem everyOpInPorts_eq (ports : List (Option (PortOp F))) :
    everyOpInPorts ports = (ports.reduceOption.map AnyOp.port).flatMap AnyOp.everyOp := by
  induction ports with
  | nil => simp only [everyOpInPorts, List.reduceOption_nil, List.map_nil, List.flatMap_nil]
  | cons slot ports ih =>
    rw [everyOpInPorts, ih]
    cases slot with
    | none =>
      rw [everyOpInPort, List.reduceOption_cons_of_none]
      rfl
    | some p =>
      rw [everyOpInPort, List.reduceOption_cons_of_some]
      rfl

/-- An op and every op in it: the op itself, and what there is in each of the ops it is made of. -/
theorem AnyOp.everyOp_eq (x : AnyOp F) : x.everyOp = x :: x.children.flatMap AnyOp.everyOp := by
  cases x with
  | values op =>
    cases op <;> simp [AnyOp.everyOp, ValuesOp.everyOp, AnyOp.children, ValuesOp.children,
      everyOpIn_eq, everyOpInStages_eq]
  | form f =>
    obtain ⟨command, args, ports, ⟨kind, function, special, op⟩, unset, pos⟩ := f
    simp [AnyOp.everyOp, FormOp.everyOp, AnyOp.children, Resolution.everyOp, everyOpInPorts_eq]
  | port p =>
    cases p <;> simp [AnyOp.everyOp, PortOp.everyOp, AnyOp.children]

/-- The sum of what every op of a tree counts for. -/
def Statistic.total (q : Statistic) (x : AnyOp F) : Nat := (x.everyOp.map q.weight).sum

/-- An op counts for itself and for the ops it is made of. -/
theorem Statistic.total_eq (q : Statistic) (x : AnyOp F) :
    q.total x = q.weight x + (x.children.map q.total).sum := by
  rw [total, AnyOp.everyOp_eq, List.map_cons, List.sum_cons, List.map_flatMap, List.flatMap_def,
    List.sum_flatten, List.map_map]
  rfl

/-! ### Tables of ports -/

section

variable {q : Statistic}

/-- What the ops in a table of ports count for. -/
def slotsTotal (q : Statistic) (ports : List (Option (PortOp F))) : Nat :=
  (ports.map fun slot => slot.elim 0 (q.total ∘ .port)).sum

theorem sum_reduceOption (ports : List (Option (PortOp F))) :
    ((ports.reduceOption.map AnyOp.port).map q.total).sum = slotsTotal q ports := by
  induction ports with
  | nil => rfl
  | cons slot ports ih =>
    cases slot with
    | none => rw [List.reduceOption_cons_of_none, ih]; simp [slotsTotal]
    | some op =>
      rw [List.reduceOption_cons_of_some, List.map_cons, List.map_cons, List.sum_cons, ih]
      simp [slotsTotal]

/-- An op that is put into a slot adds what it counts for, and takes away what was there. -/
theorem slotsTotal_set (op : PortOp F) : ∀ (ports : List (Option (PortOp F))) (i : Nat),
    slotsTotal q (ports.set i (some op)) ≤ slotsTotal q ports + q.total (.port op) ∧
      (ports[i]? = some none →
        slotsTotal q (ports.set i (some op)) = slotsTotal q ports + q.total (.port op))
  | [], i => by simp
  | slot :: ports, 0 => by
    have hset : slotsTotal q ((slot :: ports).set 0 (some op)) =
        q.total (.port op) + slotsTotal q ports := by simp [slotsTotal]
    have hold : slotsTotal q (slot :: ports) = slot.elim 0 (q.total ∘ .port) + slotsTotal q ports := by
      simp [slotsTotal]
    rw [hset, hold]
    refine ⟨by omega, fun hslot => ?_⟩
    obtain rfl : slot = none := by simpa using hslot
    simp only [Option.elim_none]
    omega
  | slot :: ports, i + 1 => by
    obtain ⟨hle, heq⟩ := slotsTotal_set op ports i
    simp only [slotsTotal, List.set_cons_succ, List.map_cons, List.sum_cons, List.getElem?_cons_succ]
      at hle heq ⊢
    refine ⟨by omega, fun hslot => ?_⟩
    have := heq hslot
    omega

/-- The ops put into a table add at most what they count for, and exactly that if each goes into an
empty slot of its own. -/
theorem slotsTotal_fillPorts : ∀ (rs : List Redirection) (ops : List (PortOp F))
    (ports : List (Option (PortOp F))), rs.length = ops.length →
    slotsTotal q (fillPorts rs ops ports) ≤
        slotsTotal q ports + (ops.map fun op => q.total (.port op)).sum ∧
      ((rs.map (·.fd.toNat)).Nodup → (∀ r ∈ rs, ports[r.fd.toNat]? = some none) →
        slotsTotal q (fillPorts rs ops ports) =
          slotsTotal q ports + (ops.map fun op => q.total (.port op)).sum)
  | [], [], ports, _ => by simp [fillPorts]
  | r :: rs, op :: ops, ports, hlength => by
    obtain ⟨hle, heq⟩ := slotsTotal_fillPorts rs ops (ports.set r.fd.toNat (some op))
      (Nat.succ.inj hlength)
    obtain ⟨hle', heq'⟩ := slotsTotal_set (q := q) op ports r.fd.toNat
    rw [fillPorts, List.map_cons, List.sum_cons]
    refine ⟨by omega, fun hnodup hempty => ?_⟩
    rw [List.map_cons, List.nodup_cons] at hnodup
    have hfirst := heq' (hempty r List.mem_cons_self)
    have hrest := heq hnodup.2 fun r' hr' => by
      have hne : r.fd.toNat ≠ r'.fd.toNat := fun h => hnodup.1 (List.mem_map.2 ⟨r', hr', h.symm⟩)
      rw [List.getElem?_set_ne hne]
      exact hempty r' (List.mem_cons_of_mem r hr')
    omega

/-- **A table of ports** holds the ops of the redirections, or only some of them if a descriptor is
redirected twice. -/
theorem slotsTotal_portTable {rs : List Redirection} {ops : List (PortOp F)}
    (hlength : rs.length = ops.length) :
    slotsTotal q (portTable rs ops) ≤ (ops.map fun op => q.total (.port op)).sum ∧
      ((∀ r ∈ rs, 0 ≤ r.fd) → (rs.map (·.fd)).Nodup →
        slotsTotal q (portTable rs ops) = (ops.map fun op => q.total (.port op)).sum) := by
  have hnone : slotsTotal q (List.replicate (portCount rs) (none : Option (PortOp F))) = 0 := by
    simp [slotsTotal]
  obtain ⟨hle, heq⟩ := slotsTotal_fillPorts (q := q) rs ops (List.replicate (portCount rs) none) hlength
  rw [hnone, Nat.zero_add] at hle heq
  refine ⟨hle, fun hnonneg hnodup => heq ?_ fun r hr => ?_⟩
  · have hmap : rs.map (·.fd.toNat) = (rs.map (·.fd)).map Int.toNat := by rw [List.map_map]; rfl
    rw [hmap]
    refine List.Nodup.map_on (fun a ha b hb hab => ?_) hnodup
    obtain ⟨r, hr, rfl⟩ := List.mem_map.1 ha
    obtain ⟨r', hr', rfl⟩ := List.mem_map.1 hb
    have := hnonneg r hr
    have := hnonneg r' hr'
    omega
  · rw [List.getElem?_replicate, if_pos (lt_portCount hr)]

end

/-! ### Counting along a compilation -/

/-- From `s` to `s'` the statistics grow by at least `n`, and by exactly `n` if `exact`. -/
def Tallied (exact : Prop) (s : CompileState) (n : Statistic → Nat) (s' : CompileState) : Prop :=
  ∀ q : Statistic, q.reading s.stats + n q ≤ q.reading s'.stats ∧
    (exact → q.reading s'.stats = q.reading s.stats + n q)

section

variable {exact : Prop} {s t s' : CompileState} {m n : Statistic → Nat}

namespace Tallied

/-- Something is counted. -/
theorem step (h : ∀ q : Statistic, q.reading s'.stats = q.reading s.stats + n q) :
    Tallied exact s n s' := fun q => ⟨Nat.le_of_eq (h q).symm, fun _ => h q⟩

/-- Nothing is counted. -/
theorem stay (h : ∀ q : Statistic, q.reading s'.stats = q.reading s.stats) :
    Tallied exact s (fun _ => 0) s' := step h

theorem trans (h : Tallied exact s m t) (h' : Tallied exact t n s') :
    Tallied exact s (fun q => m q + n q) s' := by
  intro q
  obtain ⟨hle, heq⟩ := h q
  obtain ⟨hle', heq'⟩ := h' q
  rw [← Nat.add_assoc]
  refine ⟨by omega, fun hexact => ?_⟩
  rw [heq' hexact, heq hexact]

/-- What is left of an op may count for less, though not if the count is to be exact. -/
theorem mono (h : Tallied exact s m s') (hle : ∀ q, n q ≤ m q) (heq : exact → ∀ q, n q = m q) :
    Tallied exact s n s' := by
  intro q
  obtain ⟨hle', heq'⟩ := h q
  have := hle q
  refine ⟨by omega, fun hexact => ?_⟩
  have := heq hexact q
  have := heq' hexact
  omega

theorem congr (h : Tallied exact s m s') (heq : ∀ q, n q = m q) : Tallied exact s n s' :=
  h.mono (fun q => Nat.le_of_eq (heq q)) fun _ => heq

/-- The states matter only for what their statistics say. -/
theorem restate {u u' : CompileState} (h : Tallied exact s n s')
    (hs : ∀ q : Statistic, q.reading u.stats = q.reading s.stats)
    (hs' : ∀ q : Statistic, q.reading u'.stats = q.reading s'.stats) : Tallied exact u n u' := by
  intro q
  rw [hs, hs']
  exact h q

end Tallied

theorem tallied_of_chain {f : α → Statistic → Nat} {as : List α}
    (h : Chain (fun s a s' => Tallied exact s (f a) s') s as s') :
    Tallied exact s (fun q => (as.map fun a => f a q).sum) s' := by
  induction h with
  | nil => exact .stay fun _ => rfl
  | cons ha _ ih => exact (ha.trans ih).congr fun q => by simp

theorem tallied_of_pairs {f : α → Statistic → Nat} {pairs : List (α × α)}
    (h : Chain (InPairs fun s a s' => Tallied exact s (f a) s') s pairs s') :
    Tallied exact s (fun q => (pairs.map fun p => f p.1 q + f p.2 q).sum) s' := by
  refine tallied_of_chain (f := fun (p : α × α) q => f p.1 q + f p.2 q) ?_
  induction h with
  | nil => exact .nil
  | cons hpair _ ih =>
    obtain ⟨u, hfst, hsnd⟩ := hpair
    exact .cons (hfst.trans hsnd) ih

end

/-! ### The rules -/

section

variable {exact : Prop} {s t s' : CompileState} {q : Statistic}

@[simp] theorem reading_deeper (s : CompileState) : q.reading s.deeper.stats = q.reading s.stats := by
  cases q <;> rfl

theorem stats_lookedAll (names : List Name) : ∀ s : CompileState,
    (names.foldl (·.looked ·) s).stats = s.stats := by
  induction names with
  | nil => exact fun _ => rfl
  | cons n names ih => exact fun s => ih (s.looked n)

/-- An op that counts for nothing itself counts for its parts. -/
theorem total_of_parts (parts : List (ValuesOp F)) {op : ValuesOp F} (hweight : q.weight (.values op) = 0)
    (hchildren : op.children = parts.map .values) :
    q.total (.values op) = (parts.map fun part => q.total (.values part)).sum := by
  rw [q.total_eq, hweight, Nat.zero_add, AnyOp.children, hchildren, List.map_map]
  rfl

theorem total_around {op inner : ValuesOp F} (hweight : q.weight (.values op) = 0)
    (hchildren : op.children = [.values inner]) : q.total (.values op) = q.total (.values inner) :=
  (total_of_parts [inner] hweight hchildren).trans (by simp)

theorem total_missing : q.total (.values (.missing : ValuesOp F)) = 0 :=
  total_of_parts [] (by cases q <;> rfl) rfl

theorem total_string (text : Bytes) (pos : Pos) :
    q.total (.values (.string text pos : ValuesOp F)) = 0 :=
  total_of_parts [] (by cases q <;> rfl) rfl

theorem total_spaced (ops : List (ValuesOp F)) (pos : Pos) :
    q.total (.values (.spaced ops pos)) = (ops.map fun op => q.total (.values op)).sum :=
  total_of_parts ops (by cases q <;> rfl) rfl

theorem total_chunk (ops : List (ValuesOp F)) (pos : Pos) :
    q.total (.values (.chunk ops pos)) = (ops.map fun op => q.total (.values op)).sum :=
  total_of_parts ops (by cases q <;> rfl) rfl

theorem total_capture (op : ValuesOp F) : q.total (.values op.capture) = q.total (.values op) :=
  total_around (by cases q <;> rfl) rfl

theorem total_word (ops : List (ValuesOp F)) (pos : Pos) :
    q.total (.values (.word ops pos)) = (ops.map fun op => q.total (.values op)).sum := by
  match ops with
  | [op] => simp
  | [] | op :: op' :: ops => exact total_of_parts _ (by cases q <;> rfl) rfl

theorem total_indexed (left index : ValuesOp F) (pos : Pos) :
    q.total (.values (.indexed left index pos)) = q.total (.values left) + q.total (.values index) := by
  cases index with
  | missing => rw [total_missing]; rfl
  | _ => exact (total_of_parts [left, _] (by cases q <;> rfl) rfl).trans (by simp)

theorem total_pipeline (stages : List (FormOp F)) (pos : Pos) :
    q.total (.values (.pipeline (stages.map some) pos)) = (stages.map fun f => q.total (.form f)).sum := by
  have hweight : q.weight (.values (.pipeline (stages.map some) pos)) = 0 := by cases q <;> rfl
  have hstages : (stages.map some).reduceOption = stages := by simp [List.reduceOption]
  rw [q.total_eq, hweight, Nat.zero_add, AnyOp.children, ValuesOp.children, hstages, List.map_map]
  rfl

theorem total_table (items : ValuesOp F) (pairs : List (ValuesOp F × ValuesOp F)) (pos : Pos) :
    q.total (.values (.table items (pairs.map (·.1)) (pairs.map (·.2)) pos)) = q.total (.values items) +
      (pairs.map fun p => q.total (.values p.1) + q.total (.values p.2)).sum := by
  refine (total_of_parts (items :: (pairs.map (·.1) ++ pairs.map (·.2))) (by cases q <;> rfl) rfl).trans ?_
  rw [List.map_cons, List.sum_cons, List.map_append, List.sum_append, List.sum_map_add, List.map_map,
    List.map_map]
  rfl

/-- A form counts for its parts, and for one form. -/
theorem total_form (command args : ValuesOp F) (ports : List (Option (PortOp F)))
    (resolution : Resolution F) (unset : PortPolicy) (pos : Pos) :
    q.total (.form ⟨command, args, ports, resolution, unset, pos⟩) = (if q = .forms then 1 else 0) +
      (q.total (.values command) + (q.total (.values args) + (q.total (.values resolution.op) +
        slotsTotal q ports))) := by
  have hweight : q.weight (.form ⟨command, args, ports, resolution, unset, pos⟩) =
      if q = .forms then 1 else 0 := by cases q <;> rfl
  rw [q.total_eq, hweight, AnyOp.children, List.map_cons, List.map_cons, List.map_cons, List.sum_cons,
    List.sum_cons, List.sum_cons, sum_reduceOption]

/-- A closure counts for itself and for its code. -/
theorem total_closureOf (params : List Name) (pipelines : List (ValuesOp F)) (captures : CaptureSet)
    (pos : Pos) : q.total (.values (.closureOf params pipelines captures pos)) =
      (pipelines.map fun op => q.total (.values op)).sum +
        q.weight (.values (.closureOf params pipelines captures pos)) := by
  rw [q.total_eq, ValuesOp.closureOf, AnyOp.children, ValuesOp.children, List.map_cons, List.map_nil,
    List.sum_cons, List.sum_nil, Nat.add_zero, total_chunk, Nat.add_comm]

theorem reading_passedOn (params : List Name) (pipelines : List (ValuesOp F)) (pos : Pos) :
    q.reading (s.passedOn t).stats =
      q.reading t.stats + q.weight (.values (.closureOf params pipelines t.captures pos)) := by
  cases q <;> rfl

/-- The command word of a form and its redirections. -/
theorem tallied_head {env : Env F} {f : Form} {fs : List Form} {op : ValuesOp F} {c : Command F}
    {portOps : List (PortOp F)} (hgood : exact → (f.redirections.map (·.fd)).Nodup)
    (h : FormHead env (fun _ s op s' => Tallied exact s (fun q => q.total (.values op)) s')
      (fun _ s op s' => Tallied exact s (fun q => q.total (.port op)) s') f fs s op c portOps s') :
    Tallied exact s (fun q => (if q = .forms then 1 else 0) + q.total (.values op) +
      slotsTotal q (portTable f.redirections portOps)) s' := by
  obtain ⟨t, u, hop, hfound, hports⟩ := h.parts
  have hcount : Tallied exact s (fun q => if q = .forms then 1 else 0)
      (s.counted fun n => { n with forms := n.forms + 1 }) := by
    refine .step fun q => ?_
    cases q <;> simp [Statistic.reading, CompileState.counted, Nat.add_right_comm]
  have hlooked : Tallied exact t (fun _ => 0) u := by
    refine .stay fun q => ?_
    cases hfound <;> rfl
  have htable : Tallied exact u (fun q => slotsTotal q (portTable f.redirections portOps)) s' := by
    refine (tallied_of_chain hports).mono (fun q => (slotsTotal_portTable h.ports.length_eq).1) ?_
    intro hexact q
    exact (slotsTotal_portTable h.ports.length_eq).2 (fun r hr => (h.checked r hr).1) (hgood hexact)
  exact ((hcount.trans hop).trans (hlooked.trans htable)).congr fun q => by rw [Nat.zero_add]

theorem total_port {op : PortOp F} : q.total (.port op) = ((AnyOp.port op).children.map q.total).sum := by
  have hweight : q.weight (.port op) = 0 := by cases q <;> rfl
  rw [q.total_eq, hweight, Nat.zero_add]

end

/-- **Ops are built as they are counted.** Each way of building an op adds to the statistics what the op
counts for beyond its parts, or more if it drops some of them. -/
theorem tallies (env : Env F) (exact : Prop) :
    Builds env (fun _ s op s' => Tallied exact s (fun q => q.total (.values op)) s')
      (fun _ s op s' => Tallied exact s (fun q => q.total (.port op)) s') true
      (fun f => exact → (f.redirections.map (·.fd)).Nodup)
      (fun _ s op s' => Tallied exact s (fun q => q.total (.form op)) s') where
  nested h := h.restate (fun q => (reading_deeper _).symm) fun _ => rfl
  nestedForm h := h.restate (fun q => (reading_deeper _).symm) fun _ => rfl
  string text pos := (Tallied.stay fun _ => rfl).congr fun q => total_string text pos
  reference := by
    intro fs s n t pos _
    refine .step fun q => ?_
    rw [q.total_eq]
    cases q <;> rfl
  word pos _ h := (tallied_of_chain h).congr fun q => total_word _ pos
  sigil := by
    intro fs s op t resolution b pos h hcommand
    have hcount : Tallied exact t (fun q => if q = .forms then 1 else 0)
        ((t.counted fun c => { c with sigils := c.sigils + 1 }).looked (functionName [b])) := by
      refine .step fun q => ?_
      cases q <;> rfl
    obtain ⟨hmissing, -⟩ := plain_of_commandOf hcommand
    refine (h.trans hcount).congr fun q => ?_
    have hslots : slotsTotal q ([] : List (Option (PortOp F))) = 0 := rfl
    have hpipeline := total_pipeline (q := q) [sigilStage env.options b op resolution pos] pos
    rw [List.map_singleton, List.map_singleton, List.sum_singleton, sigilStage, total_form, total_string,
      hmissing, total_missing, hslots] at hpipeline
    rw [total_capture, sigilStage, hpipeline]
    omega
  indexed pos h h' := (h.trans h').congr fun q => total_indexed _ _ pos
  spaced pos h := (tallied_of_chain h).congr fun q => total_spaced _ pos
  table pos h h' := by
    refine ((tallied_of_chain h).trans (tallied_of_pairs h')).congr fun q => ?_
    rw [total_table, total_spaced]
  closure params pos h _ := by
    have hcode := (tallied_of_chain (h rfl)).restate (u := _) (fun q => (reading_deeper _).symm) fun _ => rfl
    exact (hcode.trans (.step fun q => reading_passedOn params _ pos)).congr fun q =>
      total_closureOf params _ _ pos
  pipeline pos h := (tallied_of_chain h).congr fun q => total_pipeline _ pos
  capture h := h.congr fun q => total_capture _
  plainForm := by
    intro f fs s op resolution portOps t args s' hgood _ hhead hargs
    obtain ⟨u, v, -, hfound, -⟩ := hhead.parts
    have hop : resolution.op = .missing := hfound.plain.1
    refine ((tallied_head hgood hhead).trans (tallied_of_chain hargs)).congr fun q => ?_
    rw [total_form, total_spaced, hop, total_missing]
    omega
  specialForm := by
    intro f fs s op entry portOps t special s' hgood _ hhead hspecial
    refine ((tallied_head hgood hhead).trans hspecial).congr fun q => ?_
    rw [total_form, total_missing]
    simp only [Resolution.ofSpecial]
    omega
  var valuesPos _ _ _ _ _ h := by
    refine ((tallied_of_chain h).restate (fun _ => rfl) fun _ => rfl).congr fun q => ?_
    rw [total_around (by cases q <;> rfl) rfl, total_spaced]
  declare _ _ _ _ _ := by
    refine (Tallied.stay fun _ => rfl).congr fun q => ?_
    rw [total_around (by cases q <;> rfl) rfl, total_missing]
  set := by
    intro f fs s names values s' valuesPos pos _ _ _ _ _ h
    refine ((tallied_of_chain h).restate (fun q => ?_) fun _ => rfl).congr fun q => ?_
    · rw [stats_lookedAll]
    · rw [total_around (by cases q <;> rfl) rfl, total_spaced]
  del pos _ _ _ _ := (Tallied.stay fun _ => rfl).congr fun q => total_of_parts [] (by cases q <;> rfl) rfl
  fn pos _ _ _ h := (h.restate (fun _ => rfl) fun _ => rfl).congr fun q =>
    total_around (by cases q <;> rfl) rfl
  closePort pos := (Tallied.stay fun _ => rfl).congr fun q => total_port
  dupPort pos _ _ := (Tallied.stay fun _ => rfl).congr fun q => total_port
  filePort flags pos h := h.congr fun q => total_port.trans (by simp [AnyOp.children])

/-! ### Whole scripts -/

/-- **Statistics count the ops.** When a script compiles with special forms among the four that bind
names, no statistic is less than what the ops of the script come to, wherever they stand in its op; and
each statistic is exactly that if no form of the script redirects a descriptor twice. -/
theorem stats_count_ops (c : Compiler F) (hcore : c.registry.CoreOnly) (source : Source) (chunk : Chunk)
    (root : Frame) {op : ValuesOp F} {stats : Stats}
    (h : c.compile source chunk root = .ok ⟨.ok op, stats⟩) :
    (∀ q : Statistic, q.total (.values op) ≤ q.reading stats) ∧
    ((∀ f ∈ formsInPipelines true chunk.pipelines, (f.redirections.map (·.fd)).Nodup) →
      ∀ q : Statistic, q.reading stats = q.total (.values op)) := by
  obtain ⟨ops, s', hops, rfl, rfl⟩ := gives_of_compile h
  -- exactness is asked for under the condition itself, so every form can be taken to meet it
  have hchain := compilePipelines_builds (tallies ⟨c.registry, c.options, source⟩
    (∀ f ∈ formsInPipelines true chunk.pipelines, (f.redirections.map (·.fd)).Nodup)) hcore
    chunk.pipelines ⟨fun f hf hall => hall f hf, List.Subset.refl _⟩ hops
  have htallied := (tallied_of_chain hchain).congr fun q => total_chunk ops chunk.pos
  have hstart : ∀ q : Statistic, q.reading (CompileState.ofRoot root).stats = 0 := by
    intro q
    cases q <;> rfl
  refine ⟨fun q => ?_, fun hall q => ?_⟩
  · have hle : q.reading (CompileState.ofRoot root).stats + q.total _ ≤ q.reading s'.stats := (htallied q).1
    rwa [hstart, Nat.zero_add] at hle
  · have heq : q.reading s'.stats = q.reading (CompileState.ofRoot root).stats + q.total _ :=
      (htallied q).2 hall
    rwa [hstart, Nat.zero_add] at heq

/-- Four forms, one of them for a sigil, a closure that captures `y`, and two references. -/
theorem stats_count_ops_varied :
    (∀ f ∈ formsInPipelines true variedScript.pipelines, (f.redirections.map (·.fd)).Nodup) ∧
    ∃ op stats, withPut.compile ⟨[], []⟩ variedScript ∅ = .ok ⟨.ok op, stats⟩ ∧
      (∀ q : Statistic, q.reading stats = q.total (.values op)) ∧
      Statistic.forms.reading stats = 4 ∧ Statistic.closures.reading stats = 1 ∧
      Statistic.captures.reading stats = 1 ∧ Statistic.references.reading stats = 2 := by
  have hall : ∀ f ∈ formsInPipelines true variedScript.pipelines, (f.redirections.map (·.fd)).Nodup := by
    decide +kernel
  obtain ⟨op, stats, h, hnumbers⟩ := exists_of_compile withPut ⟨[], []⟩ variedScript ∅
    (fun op => Statistic.forms.total (.values op) = 4 ∧ Statistic.closures.total (.values op) = 1 ∧
      Statistic.captures.total (.values op) = 1 ∧ Statistic.references.total (.values op) = 2)
    (by decide +kernel)
  have hexact := (stats_count_ops withPut coreOnly_coreEnv ⟨[], []⟩ variedScript ∅ h).2 hall
  refine ⟨hall, op, stats, h, hexact, ?_⟩
  rw [hexact, hexact, hexact, hexact]
  exact of_decide_eq_true hnumbers

/-- `var y`, then `put > $y > out`. -/
def replacedScript : Chunk :=
  codeOf [formOf "var" [.string 0 (utf8 "y")],
    { formOf "put" [] with
      redirections := [intoFile (.variable 0 (utf8 "y")), intoFile (.string 0 (utf8 "out"))] }]

/-- The reference in a redirection that is replaced is counted, and its op dropped. -/
example : (withPut.compile ⟨[], []⟩ replacedScript ∅).toOption.any (fun r =>
    r.stats.references = 1 ∧
      r.outcome.toOption.any fun op => Statistic.references.total (.values op) = 0) := by decide +kernel

end ShellOps
