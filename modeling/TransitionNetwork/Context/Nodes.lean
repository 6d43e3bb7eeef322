import Std.Data.HashSet
import TransitionNetwork.Context.Basic

/-!
# Nodes of a context

The nodes that can be reached from a context through parents, each once, in the order of a
depth-first traversal that visits the parents of a node in order of its entries.
-/

namespace TransitionNetwork

namespace Context

/-- Visit pending nodes in order. A node that was seen is passed over; any other one is listed,
and its parents are visited next. -/
def nodesFrom (pending : List Context) (seen : Std.HashSet NodeId) : List Context :=
  match pending with
  | [] => []
  | c :: rest =>
    if seen.contains c.identity then nodesFrom rest seen
    else c :: nodesFrom (c.parents ++ rest) (seen.insert c.identity)
termination_by totalWeight pending
decreasing_by
  · have positive : 0 < c.weight := Nat.lt_of_le_of_lt (Nat.zero_le _) (entriesWeight_entries_lt c)
    simp only [totalWeight]
    omega
  · have smaller := totalWeight_parents_lt c
    simp only [totalWeight, totalWeight_append]
    omega

/-- Every node of a context once, the context itself first. -/
def nodes (c : Context) : List Context := nodesFrom [c] ∅

end Context

end TransitionNetwork
