import TransitionNetwork.Context.Table

/-!
# Interning contexts

Interning replaces every node of a context by the member of a table that is equal to it. Nodes
without an equal member are rebuilt over interned parents, unless these did not change, and
become members. The empty context is one node anyway and is no member of any table. A map of
visited nodes carries the work on shared nodes from one call to the next.
-/

namespace TransitionNetwork

/-- The interned contexts of visited nodes, by identity. -/
abbrev VisitedNodes := Std.HashMap NodeId Context

/-- What interning uses and changes. -/
structure InternState where
  table : ContextTable
  visited : VisitedNodes
  /-- The next identity that is free. -/
  next : NodeId

namespace InternState

/-- Note the interned context of a node. -/
def visit (s : InternState) (c interned : Context) : InternState :=
  { s with visited := s.visited.insert c.identity interned }

end InternState

namespace Context

variable [NodeDigest]

/-- The member of a table that is equal to a context; the context becomes a member if there is
none, but the empty context never does. -/
def addTo (c : Context) (table : ContextTable) : Context × ContextTable :=
  if c.isEmpty then (c, table) else table.intern c

/-- A node whose entries have been interned: the node itself if no parent changed, else a new
one, or the member that is equal to it. -/
def internNode (c : Context) (entries : List (Entry Context)) (changed : Bool)
    (s : InternState) : Context × InternState :=
  if changed then
    let (rebuilt, next) := ofEntries entries s.next
    let (interned, table) := rebuilt.addTo s.table
    let s : InternState := { s with table, next }
    (interned, (s.visit interned interned).visit c interned)
  else
    let (interned, table) := c.addTo s.table
    let s : InternState := { s with table }
    (interned, s.visit c interned)

mutual

/-- The interned form of a context. -/
def intern : Context → InternState → Context × InternState
  | empty, s => (empty, s)
  | node id digest first rest, s =>
    let c := node id digest first rest
    match s.visited[c.identity]? with
    | some interned => (interned, s)
    | none =>
      match s.table.find? c with
      | some interned => (interned, s.visit c interned)
      | none =>
        let (first, firstChanged, s) := internEntry first s
        let (rest, restChanged, s) := internEntries rest s
        internNode c (first :: rest) (firstChanged || restChanged) s

/-- An entry with its parent interned, and whether that is another node than before. -/
def internEntry : Entry Context → InternState → Entry Context × Bool × InternState
  | ⟨none, r⟩, s => (⟨none, r⟩, false, s)
  | ⟨some p, r⟩, s =>
    let (interned, s) := intern p s
    (⟨some interned, r⟩, !interned.sameNode p, s)

/-- Entries with their parents interned, and whether any of these is another node than before. -/
def internEntries :
    List (Entry Context) → InternState → List (Entry Context) × Bool × InternState
  | [], s => ([], false, s)
  | e :: rest, s =>
    let (e, eChanged, s) := internEntry e s
    let (rest, restChanged, s) := internEntries rest s
    (e :: rest, eChanged || restChanged, s)

end

end Context

end TransitionNetwork
