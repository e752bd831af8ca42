/-
# The size of a port table

The table of ports of a form has a slot for every descriptor up to the greatest that the form
redirects. So it is empty if the form redirects nothing, and otherwise its last slot is filled; and as
the descriptors are checked before, it has no more slots than the limit allows.
-/
import ShellOps.Proofs.Building

namespace ShellOps

variable {F : Type}

/-- A table of ports is no longer than it has to be, and holds no descriptor over the limit: it is empty,
or its last slot is filled and it has at most one slot more than the limit. -/
def PortsFit (limit : Int) (ports : List (Option (PortOp F))) : Prop :=
  ports = [] ∨ (∃ op, ports.getLast? = some (some op)) ∧ (ports.length : Int) ≤ limit + 1

/-! ### How many slots there are -/

/-- Some redirection has the last slot. -/
theorem exists_last_slot {rs : List Redirection} (h : rs ≠ []) :
    ∃ r ∈ rs, portCount rs = r.fd.toNat + 1 := by
  have hcount : portCount rs = (rs.map (·.fd.toNat + 1)).max?.getD 0 := by
    rw [portCount, List.foldl_max, Nat.zero_max]
  cases hmax : (rs.map (·.fd.toNat + 1)).max? with
  | none =>
    rw [List.max?_eq_none_iff, List.map_eq_nil_iff] at hmax
    exact absurd hmax h
  | some m =>
    obtain ⟨r, hr, hm⟩ := List.mem_map.1 (List.max?_mem hmax)
    refine ⟨r, hr, ?_⟩
    rw [hcount, hmax, Option.getD_some, hm]

/-- The slot of each redirection is in the table. -/
theorem lt_portCount {rs : List Redirection} {r : Redirection} (hr : r ∈ rs) :
    r.fd.toNat < portCount rs := by
  have hmem : r.fd.toNat + 1 ∈ rs.map (·.fd.toNat + 1) := List.mem_map.2 ⟨r, hr, rfl⟩
  have hle := List.le_max?_getD_of_mem (k := 0) hmem
  rw [portCount, List.foldl_max, Nat.zero_max]
  exact hle

theorem length_fillPorts : ∀ (rs : List Redirection) (ops : List (PortOp F))
    (ports : List (Option (PortOp F))), (fillPorts rs ops ports).length = ports.length
  | [], _, _ => rfl
  | _ :: _, [], _ => rfl
  | r :: rs, op :: ops, ports => by
    rw [fillPorts, length_fillPorts rs ops, List.length_set]

theorem length_portTable (rs : List Redirection) (ops : List (PortOp F)) :
    (portTable rs ops).length = portCount rs := by
  rw [portTable, length_fillPorts, List.length_replicate]

/-! ### Which slots are filled -/

/-- A slot that is filled stays filled, and the slot of each redirection is filled. -/
theorem fillPorts_configured {i : Nat} {rs : List Redirection} {ops : List (PortOp F)}
    {ports : List (Option (PortOp F))} (hlength : rs.length = ops.length) (hi : i < ports.length)
    (h : (∃ op, ports[i]? = some (some op)) ∨ ∃ r ∈ rs, r.fd.toNat = i) :
    ∃ op, (fillPorts rs ops ports)[i]? = some (some op) := by
  induction rs generalizing ops ports with
  | nil =>
    rcases h with hfilled | ⟨r, hr, -⟩
    · exact hfilled
    · cases hr
  | cons r rs ih =>
    cases ops with
    | nil => cases hlength
    | cons op ops =>
      rw [fillPorts]
      refine ih (Nat.succ.inj hlength) (by rwa [List.length_set]) ?_
      by_cases hfd : r.fd.toNat = i
      · rw [hfd]
        exact .inl ⟨op, List.getElem?_set_self hi⟩
      · rw [List.getElem?_set_ne hfd]
        refine h.imp_right ?_
        rintro ⟨r', hr', hslot⟩
        rcases List.mem_cons.1 hr' with rfl | hr'
        · exact absurd hslot hfd
        · exact ⟨r', hr', hslot⟩

/-- **The table of ports of a form fits.** Its last slot is that of the greatest descriptor. -/
theorem portsFit_portTable {rs : List Redirection} {ops : List (PortOp F)} {limit : Int}
    (hlength : rs.length = ops.length) (hchecked : ∀ r ∈ rs, 0 ≤ r.fd ∧ r.fd ≤ limit) :
    PortsFit limit (portTable rs ops) := by
  have hsize := length_portTable rs ops
  by_cases hrs : rs = []
  · left
    rw [hrs] at hsize ⊢
    exact List.eq_nil_of_length_eq_zero hsize
  · right
    obtain ⟨r, hr, hlast⟩ := exists_last_slot hrs
    obtain ⟨hnonneg, hle⟩ := hchecked r hr
    constructor
    · rw [List.getLast?_eq_getElem?, hsize, hlast]
      refine fillPorts_configured hlength ?_ (.inr ⟨r, hr, rfl⟩)
      rw [List.length_replicate]
      omega
    · rw [hsize]
      omega

end ShellOps
