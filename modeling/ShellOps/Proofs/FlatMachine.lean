/-
# The machine as a flat store

The names in scope of the machine are those of its frame, and none of its operations but `define`
and `remove` touches the frame. So it is a flat store as long as its commands are: closures that are
called bring a frame of their own, and a machine whose commands call none is one (`quiet_flat`).
-/
import ShellOps.Machine.Basic
import ShellOps.Proofs.Running

namespace ShellOps.Machine

variable {α : Type} {walk : Finset Name → Option (Finset Name)}

/-- The names in scope. -/
def names (σ : world.State) : Finset Name := σ.frame.keys.toFinset

theorem mem_names {σ : world.State} {n : Name} : n ∈ names σ ↔ n ∈ σ.frame := by
  rw [names, List.mem_toFinset, Std.ExtTreeMap.mem_keys]

theorem names_congr {σ σ' : world.State} (h : σ'.frame = σ.frame) : names σ' = names σ := by
  rw [names, names, h]

/-! ### Steps -/

/-- A step that succeeds and leaves the frame alone. -/
theorem tracks_of_frame {x : Run world α}
    (h : ∀ σ, ∃ a σ', Run.outcome x σ = (.ok a, σ') ∧ σ'.frame = σ.frame) : Tracks names x some := by
  intro σ
  obtain ⟨a, σ', hout, hframe⟩ := h σ
  rw [hout]
  exact congrArg some (names_congr hframe).symm

/-- A step that only changes the state, but not its frame. -/
theorem tracks_modify {f : State → State} (h : ∀ σ, (f σ).frame = σ.frame) :
    Tracks names (modify f : Run world Unit) some :=
  tracks_of_frame fun σ => ⟨(), f σ, rfl, h σ⟩

theorem tracks_get : Tracks names (get : Run world State) some :=
  tracks_of_frame fun σ => ⟨σ, σ, rfl, rfl⟩

theorem tracks_record (e : Event) : Tracks names (record e) some := tracks_modify fun _ => rfl

theorem tracks_raise (pos : Pos) (f : Fault) : Tracks names (raise pos f : Run world α) walk :=
  .fail pos rfl

/-- Cleaning up changes nothing for the names if it leaves the frame alone. -/
theorem tracks_ensuring {body : Run world α} {cleanup : State → State}
    (hbody : Tracks names body walk) (hcleanup : ∀ σ, (cleanup σ).frame = σ.frame) :
    Tracks names (ensuring body cleanup) walk := by
  intro σ
  have hout : Run.outcome (ensuring body cleanup) σ =
      ((Run.outcome body σ).1, cleanup (Run.outcome body σ).2) := rfl
  have hfirst := hbody σ
  rw [hout]
  rcases hres : Run.outcome body σ with ⟨e | a, σ'⟩ <;> simp only [hres] at hfirst
  · exact hfirst
  · exact hfirst.trans (congrArg some (names_congr (hcleanup σ')).symm)

theorem tracks_withFreshOutput {body : Run world α} (hbody : Tracks names body walk) :
    Tracks names (withFreshOutput body) walk := by
  intro σ
  have hfirst := hbody { σ with output := [] }
  have hout : Run.outcome (withFreshOutput body) σ =
      match Run.outcome body { σ with output := [] } with
      | (.ok a, σ') => (.ok (a, σ'.output), { σ' with output := σ.output })
      | (.error e, σ') => (.error e, { σ' with output := σ.output }) := rfl
  rw [hout]
  rcases hres : Run.outcome body { σ with output := [] } with ⟨e | a, σ'⟩ <;>
    simp only [hres] at hfirst <;> exact hfirst

/-- The stages of a pipeline run one after the other in the same frame. -/
theorem tracks_runStages {stages : List (Stage world Function)}
    {walks : List (Finset Name → Option (Finset Name))}
    (h : List.Forall₂ (fun stage walk => Tracks names stage.run walk) stages walks) :
    Tracks names (runStages (stages.map (·.run))) (inTurn walks) := by
  induction h with
  | nil => exact .pure []
  | @cons stage walk stages walks hstage hrest ih =>
    cases hrest with
    | nil => exact hstage.congr fun A => (Option.bind_fun_some _).symm
    | cons _ _ =>
      exact (tracks_withFreshOutput hstage).bind fun (statuses, written) =>
        (tracks_modify (f := fun σ => { σ with input := written }) fun _ => rfl).after_quiet fun _ =>
          ih.map

/-! ### Operations -/

theorem frame_closePort (σ : State) (p : Port Nat) : (σ.closePort p).frame = σ.frame := by
  unfold State.closePort
  cases p.ownedFile <;> cases p.ownedChannel <;> rfl

theorem frame_closePorts : ∀ (ports : List (Port Nat)) (σ : State),
    (ports.foldl State.closePort σ).frame = σ.frame
  | [], _ => rfl
  | p :: ports, σ => by rw [List.foldl_cons, frame_closePorts ports, frame_closePort]

theorem frame_openFile (σ : State) (path : Bytes) (flags : Int32) (mode : UInt32) :
    (σ.openFile path flags mode).2.frame = σ.frame := by
  unfold State.openFile
  dsimp only
  split <;> rfl

theorem tracks_concat (l r : Value) (pos : Pos) : Tracks names (concat l r pos) some := by
  refine (tracks_record _).after_quiet fun _ => ?_
  cases joins l.kind && joins r.kind
  · exact tracks_raise pos _
  · exact .pure _

theorem tracks_index (container key : Value) (pos : Pos) :
    Tracks names (index container key pos) some := by
  refine (tracks_record _).after_quiet fun _ => ?_
  cases container with
  | text => exact tracks_raise pos _
  | closure => exact tracks_raise pos _
  | table items pairs =>
    by_cases hall : key.toText = utf8 "*"
    · simp only [hall, if_true]
      exact .pure _
    · simp only [hall, if_false]
      cases itemNumber? key.toText with
      | some i =>
        cases hi : items[i]? <;> simp only [hi]
        · exact tracks_raise pos _
        · exact .pure _
      | none =>
        cases lastPair? pairs key.toText
        · exact tracks_raise pos _
        · exact .pure _

theorem tracks_makeChannel (run : CommandCall world Function → Run world (List Value)) :
    Tracks names (operations run).makeChannel some := by
  refine tracks_get.after_quiet fun σ => ?_
  cases h : σ.channelLimit.any (· ≤ σ.channels)
  · simp only [Bool.false_eq_true, if_false]
    exact .after_quiet (tracks_modify fun _ => rfl) fun _ => .pure _
  · exact fun _ _ => rfl

/-- A command runs with its ports in force; closing them afterwards changes no name. -/
theorem tracks_call {run : CommandCall world Function → Run world (List Value)}
    {c : CommandCall world Function} (h : Tracks names (run c) walk) :
    Tracks names ((operations run).call c) walk := by
  refine tracks_get.after_quiet fun σ => (tracks_record _).after_quiet fun _ =>
    .after_quiet (tracks_modify fun _ => rfl) fun _ => tracks_ensuring h fun σ' => ?_
  rw [frame_closePorts]

theorem names_define (σ : State) (n : Name) (v : Value) (e : Event) :
    names ((σ.record e).bindNew n v) = insert n (names σ) := by
  ext m
  rw [mem_names, Finset.mem_insert, mem_names]
  refine Std.ExtTreeMap.mem_insert.trans ?_
  rw [Std.LawfulEqCmp.compare_eq_iff_eq, eq_comm]
  rfl

theorem names_remove (σ : State) (n : Name) (e : Event) :
    names { σ.record e with frame := σ.frame.erase n } = (names σ).erase n := by
  ext m
  rw [mem_names, Finset.mem_erase, mem_names]
  refine Std.ExtTreeMap.mem_erase.trans ?_
  rw [ne_eq, Std.LawfulEqCmp.compare_eq_iff_eq, eq_comm]

/-- **The machine is a flat store.** This holds whatever its commands do, as long as they run special
forms and otherwise leave the names alone. -/
theorem operations_flat {run : CommandCall world Function → Run world (List Value)}
    (hspecial : ∀ c step walk, c.special = some step → Tracks names step walk →
      Tracks names (run c) walk)
    (hplain : ∀ c, c.special = none → Tracks names (run c) some) :
    FlatEvaluator (operations run) names where
  lookup n σ := by
    refine ⟨σ.frame[n]?, σ.record (.lookup n σ.frame[n]?), rfl, rfl, ?_⟩
    rw [mem_names, Std.ExtTreeMap.mem_iff_isSome_getElem?]
  define n v σ := congrArg some (names_define σ n v _).symm
  remove n σ := congrArg some (names_remove σ n _).symm
  makeString t := (tracks_record _).after_quiet fun _ => .pure _
  makeTable items pairs := (tracks_record _).after_quiet fun _ => .pure _
  makeClosure body captured := (tracks_record _).after_quiet fun _ => .pure _
  makeChannel := tracks_makeChannel run
  concat := tracks_concat
  index := tracks_index
  get x := (tracks_record _).after_quiet fun _ => tracks_get.after_quiet fun _ => .pure _
  set x v := (tracks_record _).after_quiet fun _ => tracks_modify fun _ => rfl
  port fd := tracks_get.after_quiet fun _ => (tracks_record _).after_quiet fun _ => .pure _
  openFile path flags mode :=
    tracks_of_frame fun σ => ⟨_, _, rfl, frame_openFile σ path flags mode⟩
  callSpecial c step walk hc hstep := tracks_call (hspecial c step walk hc hstep)
  callPlain c hc := tracks_call (hplain c hc)
  runPipeline stages pos walks h := (tracks_record _).after_quiet fun _ =>
    tracks_get.after_quiet fun _ => tracks_ensuring (tracks_runStages h) fun _ => rfl
  captureOutput op run walk h :=
    (tracks_record _).after_quiet fun _ => (tracks_withFreshOutput h).map

/-- The machine with commands that do nothing but run special forms; any other gives a status. -/
def quiet : Evaluator world Function :=
  operations fun c => c.special.getD (pure [.status (utf8 "0")])

theorem quiet_flat : FlatEvaluator quiet names := by
  refine operations_flat (fun c step walk hc hstep => ?_) fun c hc => ?_
  · rw [hc]
    exact hstep
  · rw [hc]
    exact .pure _

end ShellOps.Machine
