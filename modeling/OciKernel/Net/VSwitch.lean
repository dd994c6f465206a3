import OciKernel.Container.Spec

/-!
# Net.VSwitch

The port-forward lookup of the virtual switch, `net/vswitch.rs`: the first rule for a host port wins.
-/

namespace OciKernel
namespace VSwitch

/-- `(container_id, container_port)` of the first rule for `hostPort`. -/
def lookupPortForward (rules : List ActivePortForward) (hostPort : UInt16) :
    Option (UInt64 × UInt16) :=
  (rules.find? fun r => r.hostPort = hostPort).map fun r => (r.containerId, r.containerPort)

variable {rules rules' : List ActivePortForward} {h : UInt16} {id : UInt64} {p : UInt16}

theorem lookup_append : lookupPortForward (rules ++ rules') h =
    (lookupPortForward rules h).or (lookupPortForward rules' h) := by
  simp [lookupPortForward, List.find?_append, Option.map_or]

theorem lookup_eq_none : lookupPortForward rules h = none ↔ ∀ r ∈ rules, r.hostPort ≠ h := by
  simp [lookupPortForward]

theorem mem_of_lookup (hl : lookupPortForward rules h = some (id, p)) : ⟨id, h, p⟩ ∈ rules := by
  obtain ⟨r, hr, he⟩ := Option.map_eq_some_iff.1 hl
  have hh : r.hostPort = h := by simpa using List.find?_some hr
  cases he
  rw [← hh]
  exact List.mem_of_find?_eq_some hr

/-- With pairwise distinct host ports, the lookup finds every rule. -/
theorem lookup_of_mem (hnd : (rules.map ActivePortForward.hostPort).Nodup)
    (hm : ⟨id, h, p⟩ ∈ rules) : lookupPortForward rules h = some (id, p) := by
  induction rules with
  | nil => cases hm
  | cons r rules ih =>
    rw [List.map_cons, List.nodup_cons] at hnd
    rcases List.mem_cons.1 hm with rfl | hm
    · simp [lookupPortForward]
    · have hne : r.hostPort ≠ h := fun he => hnd.1 (he ▸ List.mem_map_of_mem hm)
      rw [← ih hnd.2 hm]
      simp [lookupPortForward, hne]

end VSwitch
end OciKernel
