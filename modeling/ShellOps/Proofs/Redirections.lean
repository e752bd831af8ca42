/-
# The last redirection of a descriptor wins

A form goes through its redirections twice: once to check every descriptor and to size the table of its
ports, and once to compile them, from left to right, each into the slot of its descriptor. A descriptor
can be redirected again and again; each redirection compiles, with all that its file name does to the
names in scope, and the last one has the slot.

The compiled redirections are kept as pairs of a redirection and its op, in the order of the script, so
that "the last one for a descriptor" is said of that list (`LastFor`), and one lemma
(`getElem?_fillPorts`) says which slot holds what while the table is filled.
-/
import ShellOps.Proofs.PortTables

namespace ShellOps

variable {F : Type} {env : Env F} {s s' : CompileState}

/-- A redirection, compiled from the state `s` up to `s'`, and its op: nothing, a copy of the same
descriptor, or a file with the same flags, the mode of the options and the op of its name. -/
inductive PortCompiled (env : Env F) :
    CompileState → Redirection × PortOp F → CompileState → Prop
  | close (s : CompileState) (pos : Pos) (fd : Int) :
    PortCompiled env s (⟨pos, fd, .close⟩, .close pos) s
  | dup (s : CompileState) (pos : Pos) (fd source : Int) :
    PortCompiled env s (⟨pos, fd, .dup source⟩, .dup source pos) s
  | file {s s' : CompileState} {filename : Word} {op : ValuesOp F} (pos : Pos) (fd : Int)
      (flags : Int32) : (compileWord env filename).Gives s op s' →
    PortCompiled env s
      (⟨pos, fd, .file flags (some filename)⟩, .file op flags env.options.fileMode pos) s'

/-- The last of the compiled redirections that names the descriptor `i` has the op `op`. -/
def LastFor (pairs : List (Redirection × PortOp F)) (i : Nat) (op : PortOp F) : Prop :=
  ∃ (before : List (Redirection × PortOp F)) (r : Redirection) (after : List (Redirection × PortOp F)),
    pairs = before ++ (r, op) :: after ∧ r.fd = i ∧ ∀ p ∈ after, p.1.fd ≠ i

/-- The state in which the command word of a form is compiled. -/
def CompileState.inForm (s : CompileState) : CompileState :=
  s.deeper.counted fun c => { c with forms := c.forms + 1 }

/-- The use of a special form that a form is, if its command names one. -/
def Form.call (env : Env F) (f : Form) : SpecialCall F :=
  ⟨env.source, f.pos, f.argsPos, compileArgs env f.args⟩

/-! ### Compiling redirections -/

theorem portCompiled_of_gives {r : Redirection} {op : PortOp F}
    (h : (compileRedirection env r).Gives s op s') : PortCompiled env s (r, op) s' := by
  obtain ⟨pos, fd, target⟩ := r
  match target with
  | .close =>
    simp only [compileRedirection, CompileM.gives_pure] at h
    obtain ⟨rfl, rfl⟩ := h
    exact .close _ pos fd
  | .dup source =>
    simp only [compileRedirection] at h
    by_cases hsource : source < 0
    · simp [hsource] at h
    · simp only [hsource, if_false, CompileM.gives_bind, CompileM.gives_pure] at h
      obtain ⟨_, t, hcheck, rfl, rfl⟩ := h
      obtain ⟨-, rfl⟩ := gives_checkDescriptor hcheck
      exact .dup _ pos fd source
  | .file flags (some filename) =>
    simp only [compileRedirection, CompileM.gives_bind, CompileM.gives_pure] at h
    obtain ⟨word, t, hword, rfl, rfl⟩ := h
    exact .file pos fd flags hword
  | .file flags none => exact absurd h CompileM.gives_malformed
  | .unknown => exact absurd h CompileM.gives_malformed

/-- Redirections compile one after the other, and each is put into its slot. -/
theorem gives_compileRedirections : ∀ {rs : List Redirection} {ports ports' : List (Option (PortOp F))}
    {s : CompileState}, (compileRedirections env rs ports).Gives s ports' s' →
    ∃ pairs : List (Redirection × PortOp F), pairs.map (·.1) = rs ∧
      Chain (PortCompiled env) s pairs s' ∧ ports' = fillPorts rs (pairs.map (·.2)) ports
  | [], ports, ports', s, h => by
    simp only [compileRedirections, CompileM.gives_pure] at h
    obtain ⟨rfl, rfl⟩ := h
    exact ⟨[], rfl, .nil, rfl⟩
  | r :: rs, ports, ports', s, h => by
    simp only [compileRedirections, CompileM.gives_bind] at h
    obtain ⟨op, t, hop, hrest⟩ := h
    obtain ⟨pairs, rfl, hchain, rfl⟩ := gives_compileRedirections hrest
    exact ⟨(r, op) :: pairs, rfl, .cons (portCompiled_of_gives hop) hchain, rfl⟩

/-! ### Which redirection has a slot -/

theorem lastFor_cons {p : Redirection × PortOp F} {pairs : List (Redirection × PortOp F)} {i : Nat}
    {op : PortOp F} : LastFor (p :: pairs) i op ↔
      LastFor pairs i op ∨ p.1.fd = i ∧ p.2 = op ∧ ∀ q ∈ pairs, q.1.fd ≠ i := by
  constructor
  · rintro ⟨before, r, after, heq, hr, hafter⟩
    cases before with
    | nil =>
      obtain ⟨rfl, rfl⟩ := List.cons.inj heq
      exact .inr ⟨hr, rfl, hafter⟩
    | cons q before =>
      obtain ⟨-, rfl⟩ := List.cons.inj heq
      exact .inl ⟨before, r, after, rfl, hr, hafter⟩
  · rintro (⟨before, r, after, rfl, hr, hafter⟩ | ⟨hp, rfl, hnone⟩)
    · exact ⟨p :: before, r, after, rfl, hr, hafter⟩
    · exact ⟨[], p.1, pairs, rfl, hp, hnone⟩

/-- The slot `i`, once redirections are put into a table: the last one that names `i` has it, or it is
as it was. -/
theorem getElem?_fillPorts (i : Nat) (op : PortOp F) :
    ∀ (pairs : List (Redirection × PortOp F)) {ports : List (Option (PortOp F))}, i < ports.length →
      (∀ p ∈ pairs, 0 ≤ p.1.fd) →
      ((fillPorts (pairs.map (·.1)) (pairs.map (·.2)) ports)[i]? = some (some op) ↔
        LastFor pairs i op ∨ (∀ p ∈ pairs, p.1.fd ≠ i) ∧ ports[i]? = some (some op))
  | [], ports, _, _ => by
    have hnone : ¬ LastFor [] i op := by
      rintro ⟨before, r, after, heq, -⟩
      cases before <;> cases heq
    simp [fillPorts, hnone]
  | p :: pairs, ports, hi, hfds => by
    obtain ⟨hfd, hfds⟩ := List.forall_mem_cons.1 hfds
    have hlength : i < (ports.set p.1.fd.toNat (some p.2)).length := by rwa [List.length_set]
    have ih := getElem?_fillPorts i op pairs hlength hfds
    rw [List.map_cons, List.map_cons, fillPorts, ih, lastFor_cons, or_assoc, List.forall_mem_cons]
    apply or_congr_right
    by_cases hslot : p.1.fd = i
    · have hset : (ports.set p.1.fd.toNat (some p.2))[i]? = some (some p.2) := by
        rw [hslot]
        exact List.getElem?_set_self hi
      rw [hset, Option.some.injEq, Option.some.injEq]
      simp only [hslot, true_and, ne_eq, not_true_eq_false, false_and, or_false]
      exact and_comm
    · have hne : p.1.fd.toNat ≠ i := by omega
      simp only [List.getElem?_set_ne hne, hslot, ne_eq, not_false_eq_true, true_and, false_and, false_or]

/-- The table of ports of a form, slot by slot. -/
theorem getElem?_portTable {pairs : List (Redirection × PortOp F)} (hfds : ∀ p ∈ pairs, 0 ≤ p.1.fd)
    (i : Nat) (op : PortOp F) :
    (portTable (pairs.map (·.1)) (pairs.map (·.2)))[i]? = some (some op) ↔ LastFor pairs i op := by
  have hlength := length_portTable (pairs.map (·.1)) (pairs.map (·.2))
  by_cases hi : i < portCount (pairs.map (·.1))
  · have hsize : i < (List.replicate (portCount (pairs.map (·.1))) (none : Option (PortOp F))).length := by
      rwa [List.length_replicate]
    rw [portTable, getElem?_fillPorts i op pairs hsize hfds, List.getElem?_replicate, if_pos hi]
    simp
  · constructor
    · intro hsome
      rw [List.getElem?_eq_none (by omega)] at hsome
      cases hsome
    · rintro ⟨before, r, after, rfl, hr, -⟩
      have hlt : r.fd.toNat < portCount ((before ++ (r, op) :: after).map (·.1)) :=
        lt_portCount (by simp)
      omega

/-- A slot is empty exactly if no redirection names its descriptor. -/
theorem portTable_eq_none_iff {pairs : List (Redirection × PortOp F)} (hfds : ∀ p ∈ pairs, 0 ≤ p.1.fd)
    {i : Nat} (hi : i < (portTable (pairs.map (·.1)) (pairs.map (·.2))).length) :
    (portTable (pairs.map (·.1)) (pairs.map (·.2)))[i]? = some none ↔ ∀ p ∈ pairs, p.1.fd ≠ i := by
  constructor
  · intro hnone p hp hfd
    have hfilled : ∃ op, (portTable (pairs.map (·.1)) (pairs.map (·.2)))[i]? = some (some op) := by
      apply fillPorts_configured
      · simp
      · rwa [length_portTable, ← List.length_replicate (n := portCount _)] at hi
      · refine .inr ⟨p.1, List.mem_map_of_mem hp, ?_⟩
        omega
    obtain ⟨op, hop⟩ := hfilled
    rw [hnone] at hop
    cases hop
  · intro hfree
    rw [List.getElem?_eq_getElem hi]
    cases hslot : (portTable (pairs.map (·.1)) (pairs.map (·.2)))[i] with
    | none => rfl
    | some op =>
      have hlast : LastFor pairs i op := by
        rw [← getElem?_portTable hfds, List.getElem?_eq_getElem hi, hslot]
      obtain ⟨before, r, after, rfl, hr, -⟩ := hlast
      exact absurd hr (hfree (r, op) (by simp))

/-! ### Forms -/

/-- **A form, taken apart.** The command word, the redirections, then the arguments or the special form,
each from where the one before it ended. -/
theorem gives_compileForm {f : Form} {op : FormOp F} (h : (compileForm env f).Gives s op s') :
    ∃ command t pairs u v, (compileCommand env f.command).Gives s.inForm (op.command, command) t ∧
      pairs.map (·.1) = f.redirections ∧ (∀ r ∈ f.redirections, 0 ≤ r.fd ∧ r.fd ≤ env.options.maxFd) ∧
      Chain (PortCompiled env) t pairs u ∧
      op.ports = portTable f.redirections (pairs.map (·.2)) ∧
      (finishCommand command (f.call env)).Gives u (op.args, op.resolution) v ∧
      s' = { v with depth := v.depth - 1 } := by
  obtain ⟨pos, command, argsPos, args, redirections⟩ := f
  simp only [compileForm] at h
  obtain ⟨-, v, hbody, rfl⟩ := CompileM.gives_nested.1 h
  obtain ⟨_, t₀, hcount, h⟩ := CompileM.gives_bind.1 hbody
  obtain ⟨⟨commandOp, c⟩, t, hc, h⟩ := CompileM.gives_bind.1 h
  obtain ⟨_, t₁, hcheck, h⟩ := CompileM.gives_bind.1 h
  obtain ⟨ports, u, hports, h⟩ := CompileM.gives_bind.1 h
  obtain ⟨⟨argsOp, resolution⟩, v', hfinish, h⟩ := CompileM.gives_bind.1 h
  obtain ⟨rfl, rfl⟩ := CompileM.gives_pure.1 h
  obtain rfl := CompileM.gives_count.1 hcount
  obtain ⟨hchecked, rfl⟩ := gives_checkRedirections hcheck
  obtain ⟨pairs, hpairs, hchain, rfl⟩ := gives_compileRedirections hports
  exact ⟨c, _, pairs, u, _, hc, hpairs, hchecked, hchain, rfl, hfinish, rfl⟩

/-- Descriptors within the limit pass the check. -/
theorem checkRedirections_append {o : Options} (rest : List Redirection) :
    ∀ {front : List Redirection}, (∀ q ∈ front, 0 ≤ q.fd ∧ q.fd ≤ o.maxFd) →
      checkRedirections o (front ++ rest) = checkRedirections o rest
  | [], _ => rfl
  | q :: front, h => by
    obtain ⟨⟨hnonneg, hle⟩, hfront⟩ := List.forall_mem_cons.1 h
    rw [List.cons_append, checkRedirections, checkDescriptor, if_neg (by omega), if_neg (by omega),
      pure_bind, checkRedirections_append rest hfront]

/-- A form whose descriptors do not pass stops there, in the state that its command word left. -/
theorem outcome_compileForm_of_check {f : Form} {op : ValuesOp F} {command : Command F}
    {t : CompileState} {e : Failure} (hdepth : env.options.exceeds (s.depth + 1) = false)
    (hcommand : (compileCommand env f.command).Gives s.inForm (op, command) t)
    (hcheck : (checkRedirections env.options f.redirections).outcome t = (.error e, t)) :
    (compileForm env f).outcome s = (.error e, { t with depth := t.depth - 1 }) := by
  obtain ⟨pos, word, argsPos, args, redirections⟩ := f
  have hcommand : (compileCommand env word).outcome s.inForm = (.ok (op, command), t) := hcommand
  have hcount : (CompileM.count fun c => { c with forms := c.forms + 1 }).outcome s.deeper =
      (.ok (), s.inForm) := rfl
  simp only [compileForm, CompileM.outcome_nested, hdepth, Bool.false_eq_true, if_false,
    CompileM.outcome_bind, hcount, hcommand, hcheck]

/-- **The last redirection wins.** If a form compiles, its redirections were compiled between its command
word and its arguments, all of them and from left to right. Its table of ports is empty if there are
none; otherwise the greatest descriptor has the last slot, and the limit holds. A slot is empty exactly if
no redirection names it, and else it holds the op of the last one that does. If the command word compiles
and some descriptor is negative or over the limit, the form fails at the first such one, in the state
that the command word left: no file name was compiled. -/
theorem last_redirection_wins (env : Env F) (f : Form) (s : CompileState) :
    (∀ op s', (compileForm env f).Gives s op s' → ∃ command t pairs u v,
      (compileCommand env f.command).Gives s.inForm (op.command, command) t ∧
      pairs.map (·.1) = f.redirections ∧ Chain (PortCompiled env) t pairs u ∧
      (finishCommand command (f.call env)).Gives u (op.args, op.resolution) v ∧
      s' = { v with depth := v.depth - 1 } ∧
      (f.redirections = [] → op.ports = []) ∧
      (f.redirections ≠ [] → (∃ r ∈ f.redirections, (op.ports.length : Int) = r.fd + 1) ∧
        (∀ r ∈ f.redirections, r.fd < op.ports.length) ∧
        (op.ports.length : Int) ≤ env.options.maxFd + 1) ∧
      (∀ i, i < op.ports.length → (op.ports[i]? = some none ↔ ∀ r ∈ f.redirections, r.fd ≠ i)) ∧
      ∀ i port, op.ports[i]? = some (some port) ↔ LastFor pairs i port) ∧
    ∀ op command t front r rest, env.options.exceeds (s.depth + 1) = false →
      (compileCommand env f.command).Gives s.inForm (op, command) t →
      f.redirections = front ++ r :: rest → (∀ q ∈ front, 0 ≤ q.fd ∧ q.fd ≤ env.options.maxFd) →
      (r.fd < 0 → (compileForm env f).outcome s =
        (.error (.malformed (.negativeDescriptor r.fd)), { t with depth := t.depth - 1 })) ∧
      (0 ≤ r.fd → env.options.maxFd < r.fd → (compileForm env f).outcome s =
        (.error (.rejected r.pos (.descriptorTooLarge r.fd env.options.maxFd)),
          { t with depth := t.depth - 1 })) := by
  constructor
  · intro op s' h
    obtain ⟨command, t, pairs, u, v, hcommand, hpairs, hchecked, hchain, hports, hfinish, hs'⟩ :=
      gives_compileForm h
    have hfds : ∀ p ∈ pairs, 0 ≤ p.1.fd := fun p hp =>
      (hchecked p.1 (hpairs ▸ List.mem_map_of_mem hp)).1
    have hlength : op.ports.length = portCount f.redirections := by rw [hports, length_portTable]
    refine ⟨command, t, pairs, u, v, hcommand, hpairs, hchain, hfinish, hs', ?_, ?_, ?_, ?_⟩
    · intro hnone
      rw [hnone] at hlength
      exact List.eq_nil_of_length_eq_zero hlength
    · intro hsome
      obtain ⟨r, hr, hlast⟩ := exists_last_slot hsome
      obtain ⟨hnonneg, hle⟩ := hchecked r hr
      refine ⟨⟨r, hr, by omega⟩, fun q hq => ?_, by omega⟩
      have hlt := lt_portCount hq
      have := (hchecked q hq).1
      omega
    · intro i hi
      rw [hports, ← hpairs] at hi ⊢
      rw [portTable_eq_none_iff hfds hi, List.forall_mem_map]
    · intro i port
      rw [hports, ← hpairs]
      exact getElem?_portTable hfds i port
  · intro op command t front r rest hdepth hcommand hsplit hfront
    have hcheck := checkRedirections_append (r :: rest) hfront
    rw [← hsplit] at hcheck
    constructor
    · intro hnegative
      apply outcome_compileForm_of_check hdepth hcommand
      rw [hcheck, checkRedirections, if_pos hnegative]
      rfl
    · intro hnonneg hlarge
      apply outcome_compileForm_of_check hdepth hcommand
      rw [hcheck, checkRedirections, checkDescriptor, if_neg (by omega), if_pos hlarge]
      rfl

/-- `echo 2>a 1>b 2>&1 fd>&-`: the descriptor 2 is redirected twice. -/
def divertedEcho (fd : Int) : Form :=
  { formOf "echo" [] with
    redirections := [⟨1, 2, .file 0 (some (wordOf (.string 0 (utf8 "a"))))⟩,
      ⟨2, 1, .file 0 (some (wordOf (.string 0 (utf8 "b"))))⟩, ⟨3, 2, .dup 1⟩, ⟨4, fd, .close⟩] }

theorem last_redirection_wins_diverted :
    (∃ op s', (compileForm (coreEnv : Env Unit) (divertedEcho 4)).Gives (.ofRoot ∅) op s' ∧
      op.ports.length = 5 ∧ op.ports[0]? = some none ∧ op.ports[2]? = some (some (.dup 1 3)) ∧
      op.ports[3]? = some none) ∧
    ∃ s', (compileForm (coreEnv : Env Unit) (divertedEcho 1024)).outcome (.ofRoot ∅) =
      (.error (.rejected 4 (.descriptorTooLarge 1024 1023)), s') := by
  constructor
  · obtain ⟨op, s', h⟩ : ∃ op s',
        (compileForm (coreEnv : Env Unit) (divertedEcho 4)).Gives (.ofRoot ∅) op s' :=
      CompileM.exists_gives (by decide +kernel)
    obtain ⟨command, t, pairs, u, v, -, hpairs, hchain, -, -, -, hsize, hempty, hlast⟩ :=
      (last_redirection_wins coreEnv (divertedEcho 4) (.ofRoot ∅)).1 op s' h
    obtain ⟨⟨r, hr, hlength⟩, hall, -⟩ := hsize (by simp [divertedEcho])
    have hfour : (4 : Int) < op.ports.length := hall ⟨4, 4, .close⟩ (by simp [divertedEcho])
    have hle : r.fd ≤ 4 := by
      simp only [divertedEcho, List.mem_cons, List.not_mem_nil, or_false] at hr
      rcases hr with rfl | rfl | rfl | rfl <;> decide
    refine ⟨op, s', h, by omega, ?_, ?_, ?_⟩
    · exact (hempty 0 (by omega)).2 (by simp [divertedEcho])
    · rw [hlast]
      simp only [divertedEcho, List.map_eq_cons_iff, List.map_eq_nil_iff] at hpairs
      obtain ⟨p, _, rfl, -, q, _, rfl, -, ⟨_, port⟩, _, rfl, rfl, last, _, rfl, hclose, rfl⟩ := hpairs
      obtain _ | ⟨-, _ | ⟨-, _ | ⟨hport, -⟩⟩⟩ := hchain
      cases hport
      exact ⟨[p, q], _, [last], rfl, rfl, by simp [hclose]⟩
    · exact (hempty 3 (by omega)).2 (by simp [divertedEcho])
  · obtain ⟨⟨op, command⟩, t, h⟩ : ∃ a t, (compileCommand (coreEnv : Env Unit)
        (divertedEcho 1024).command).Gives (CompileState.ofRoot ∅).inForm a t :=
      CompileM.exists_gives (by decide +kernel)
    have hfails := (last_redirection_wins coreEnv (divertedEcho 1024) (.ofRoot ∅)).2 op command t
      ((divertedEcho 1024).redirections.take 3) ⟨4, 1024, .close⟩ [] (by decide) h rfl (by decide)
    exact ⟨_, hfails.2 (by decide) (by decide)⟩

end ShellOps
