import TransitionNetwork.Context.MergeCache
import TransitionNetwork.Context.Table

/-!
# Merging contexts

Merging two contexts gives one context for the stacks of both. It shares as much as possible
with the operands and is an operand itself where it has the same structure. The empty context
can be read in two ways. As an exact stack it is kept beside the others; as a wildcard it stands
for every stack, and merging with it leaves it alone.

Results are looked up in a merge cache, if there is one, and most of them are kept there. An
equal pair, an operand returned because its parent did not change, and a wildcard among several
entries are found without the cache and not kept.
-/

namespace TransitionNetwork

/-- How a merge reads the empty context. -/
inductive RootReading where
  /-- The empty stack and no other. -/
  | exact
  /-- Every stack. -/
  | wildcard
  deriving DecidableEq

/-- What merges use and change: the next identity that is free and the results so far. -/
structure MergeState where
  next : NodeId
  cache : Option MergeCache

namespace MergeState

/-- The result that is kept for two contexts. -/
def known? (m : MergeState) (a b : Context) : Option Context := m.cache.bind (·.get? a b)

/-- Keep a result for two contexts, if there is a cache. -/
def remember (m : MergeState) (a b result : Context) : MergeState :=
  { m with cache := m.cache.map (·.insert a b result) }

/-- A new node with the given entries. -/
def make [NodeDigest] (m : MergeState) (entries : List (Entry Context)) : Context × MergeState :=
  let (c, next) := Context.ofEntries entries m.next
  (c, { m with next })

end MergeState

namespace Context

variable [NodeDigest]

/-! ## Steps without recursion -/

/-- Let structurally equal parents of a list of entries be one node, the first of them. -/
def shareParents : List (Entry Context) → ContextTable → List (Entry Context)
  | [], _ => []
  | ⟨none, r⟩ :: rest, seen => ⟨none, r⟩ :: shareParents rest seen
  | ⟨some p, r⟩ :: rest, seen =>
    let (p, seen) := seen.intern p
    ⟨some p, r⟩ :: shareParents rest seen

/-- Two entries with different return states in ascending order. -/
def inOrder (e f : Entry Context) : List (Entry Context) :=
  if e.returnState > f.returnState then [f, e] else [e, f]

/-- The entries of two contexts of one entry each, with different return states. Structurally
equal parents are one node, that of the first. -/
def twoEntries (e f : Entry Context) : List (Entry Context) :=
  if e.parent.isSome ∧ beqParent e.parent f.parent then
    inOrder e { f with parent := e.parent }
  else inOrder e f

/-- The entries of a merge of two contexts of at most one entry, of which at least one is empty;
nothing if neither is. -/
def rootEntries (root : RootReading) (a b : Context) : Option (List (Entry Context)) :=
  match root, a.isEmpty, b.isEmpty with
  | _, false, false => none
  | .wildcard, _, _ => some []
  | .exact, true, true => some []
  | .exact, true, false => some (empty.top :: b.entries)
  | .exact, false, true => some (empty.top :: a.entries)

/-- The wildcard, if it is one of two contexts. -/
def wildcardOf (root : RootReading) (a b : Context) : Option Context :=
  match root with
  | .exact => none
  | .wildcard => if a.isEmpty then some a else if b.isEmpty then some b else none

/-- Whether a context has several entries and they agree with the given ones. -/
def hasEntries (c : Context) (entries : List (Entry Context)) : Bool :=
  c.isArray && beqEntries c.entries entries

/-- The context for the merged entries of two contexts: an operand that has them already, or a
new node in which equal parents are shared. -/
def ofMerged (a b : Context) (entries : List (Entry Context)) (m : MergeState) :
    Context × MergeState :=
  if a.hasEntries entries then (a, m)
  else if b.hasEntries entries then (b, m)
  else m.make (shareParents entries ∅)

/-! ## Recursion -/

mutual

/-- One context for the stacks of two. -/
def merge (root : RootReading) (a b : Context) (m : MergeState) : Context × MergeState :=
  if a == b then (a, m)
  else if a.isArray || b.isArray then
    match wildcardOf root a b with
    | some c => (c, m)
    | none =>
      match m.known? a b with
      | some c => (c, m)
      | none =>
        let (entries, m) := mergeEntries root a.entries b.entries m
        let (c, m) := ofMerged a b entries m
        (c, m.remember a b c)
  else
    match m.known? a b with
    | some c => (c, m)
    | none =>
      match rootEntries root a b with
      | some entries =>
        let (c, m) := m.make entries
        (c, m.remember a b c)
      | none =>
        if a.top.returnState = b.top.returnState then
          let (parent, m) := mergeParents root a.top.parent b.top.parent m
          if sameParent parent a.top.parent then (a, m)
          else if sameParent parent b.top.parent then (b, m)
          else
            let (c, m) := m.make [⟨parent, a.top.returnState⟩]
            (c, m.remember a b c)
        else
          let (c, m) := m.make (twoEntries a.top b.top)
          (c, m.remember a b c)
termination_by a.weight + b.weight
decreasing_by
  · have := entriesWeight_entries_lt a
    have := entriesWeight_entries_lt b
    omega
  · have := parentWeight_top_lt a
    have := parentWeight_top_lt b
    omega

/-- One rest of a stack for two. If only one is unknown, it counts as the empty stack. -/
def mergeParents (root : RootReading) (p q : Option Context) (m : MergeState) :
    Option Context × MergeState :=
  match p, q with
  | none, none => (none, m)
  | some a, some b =>
    let (c, m) := merge root a b m
    (some c, m)
  | some a, none =>
    let (c, m) := merge root a empty m
    (some c, m)
  | none, some b =>
    let (c, m) := merge root empty b m
    (some c, m)
termination_by parentWeight p + parentWeight q
decreasing_by all_goals simp only [parentWeight, weight]; omega

/-- The entries of two lists in one, where both are in ascending order. The rests of the stack
under a common return state are merged, unless they are one node. -/
def mergeEntries (root : RootReading) (es fs : List (Entry Context)) (m : MergeState) :
    List (Entry Context) × MergeState :=
  match es, fs with
  | [], fs => (fs, m)
  | es, [] => (es, m)
  | e :: es, f :: fs =>
    if e.returnState < f.returnState then
      let (rest, m) := mergeEntries root es (f :: fs) m
      (e :: rest, m)
    else if f.returnState < e.returnState then
      let (rest, m) := mergeEntries root (e :: es) fs m
      (f :: rest, m)
    else if sameParent e.parent f.parent then
      let (rest, m) := mergeEntries root es fs m
      (e :: rest, m)
    else
      let (parent, m) := mergeParents root e.parent f.parent m
      let (rest, m) := mergeEntries root es fs m
      (⟨parent, e.returnState⟩ :: rest, m)
termination_by entriesWeight es + entriesWeight fs
decreasing_by all_goals simp only [entriesWeight, entryWeight_eq]; omega

end

end Context

end TransitionNetwork
