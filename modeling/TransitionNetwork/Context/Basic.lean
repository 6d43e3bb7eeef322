/-!
# Contexts

A context stands for one or more stacks of return states at once: the states in which the active
rules of a parser continue, the innermost first. It is an immutable graph. Each node has one or
more entries, an entry being a return state over a parent that stands for the rest of the stack,
and nodes with a common rest share it.

Every node but the empty one has an identity, a number that no other node of the same history
has; whoever makes nodes passes on the next number that is free. It also keeps a digest of its
structure. Two references with one identity are one node; contexts are equal, on the other hand,
if they have the same structure, and identities and digests only shorten the comparison.
-/

namespace TransitionNetwork

/-- The identity of a node; zero is that of the empty context. -/
abbrev NodeId := Nat

/-- A return state over the rest of the stack. The rest is unknown if there is no parent. -/
structure Entry (κ : Type) where
  parent : Option κ
  returnState : Int

/-- A set of stacks of return states. -/
inductive Context where
  /-- The empty stack alone. -/
  | empty
  /-- The stacks of one or more entries, in ascending order of their return states. -/
  | node (id : NodeId) (digest : UInt64) (first : Entry Context) (rest : List (Entry Context))

/-- The form of a node: no caller, one entry or several. -/
inductive Shape where
  | empty
  | singleton
  | array
  deriving DecidableEq

/-- How the digest of a node follows from its form and from the digests of its parents with the
return states over them. Any function will do. -/
class NodeDigest where
  digest : Shape → List (Option UInt64 × Int) → UInt64

/-- The usual digest mixes form, parents and return states in order. -/
instance : NodeDigest where
  digest shape entries :=
    let seed : UInt64 := match shape with
      | .empty => 0
      | .singleton => 1
      | .array => 2
    entries.foldl (fun d e => mixHash (mixHash d (hash e.1)) (hash e.2)) seed

namespace Context

/-- The return state of the empty stack. -/
def emptyReturn : Int := -1

/-! ## Parts -/

/-- The entries; the empty context has one, without a parent. -/
def entries : Context → List (Entry Context)
  | empty => [⟨none, emptyReturn⟩]
  | node _ _ first rest => first :: rest

/-- The first entry. -/
def top : Context → Entry Context
  | empty => ⟨none, emptyReturn⟩
  | node _ _ first _ => first

/-- The number that tells a node from all others of its history. -/
def identity : Context → NodeId
  | empty => 0
  | node id _ _ _ => id

/-- The form of the node. -/
def shape : Context → Shape
  | empty => .empty
  | node _ _ _ [] => .singleton
  | node _ _ _ (_ :: _) => .array

/-- The digest of the structure. -/
def digest [NodeDigest] : Context → UInt64
  | empty => NodeDigest.digest .empty []
  | node _ digest _ _ => digest

/-- Whether this is the empty context. -/
def isEmpty (c : Context) : Bool := c.shape = .empty

/-- Whether the node has several entries. -/
def isArray (c : Context) : Bool := c.shape = .array

/-- The number of entries. -/
def size (c : Context) : Nat := c.entries.length

/-- The rest of the stack under the entry at a place. -/
def parent? (c : Context) (i : Nat) : Option Context := c.entries[i]?.bind Entry.parent

/-- The return state of the entry at a place, that of the empty stack behind the last place. -/
def returnState (c : Context) (i : Nat) : Int :=
  (c.entries[i]?.map Entry.returnState).getD emptyReturn

/-- Whether the empty stack is among the first stacks. -/
def hasEmptyPath (c : Context) : Bool := c.returnState 0 = emptyReturn

/-- The parents, in order of the entries. -/
def parents (c : Context) : List Context := c.entries.filterMap Entry.parent

/-! ## Equality -/

/-- Whether two references lead to the same node. -/
def sameNode (a b : Context) : Bool := a.identity == b.identity

/-- Whether two rests of a stack are the same node or both unknown. -/
def sameParent : Option Context → Option Context → Bool
  | none, none => true
  | some a, some b => a.sameNode b
  | _, _ => false

mutual

/-- Whether two contexts have the same structure. -/
def beq : Context → Context → Bool
  | empty, empty => true
  | node id digest first rest, node id' digest' first' rest' =>
    id == id' || (digest == digest' && (beqEntry first first' && beqEntries rest rest'))
  | _, _ => false

/-- Whether two entries have the same return state and rests of the same structure. -/
def beqEntry : Entry Context → Entry Context → Bool
  | ⟨none, r⟩, ⟨none, r'⟩ => r == r'
  | ⟨some p, r⟩, ⟨some p', r'⟩ => r == r' && beq p p'
  | _, _ => false

/-- Whether two lists of entries agree place by place. -/
def beqEntries : List (Entry Context) → List (Entry Context) → Bool
  | [], [] => true
  | e :: rest, e' :: rest' => beqEntry e e' && beqEntries rest rest'
  | _, _ => false

end

instance : BEq Context := ⟨beq⟩

/-- Whether two rests of a stack are both unknown or have the same structure. -/
def beqParent : Option Context → Option Context → Bool
  | none, none => true
  | some a, some b => a == b
  | _, _ => false

/-! ## Construction -/

/-- The part of a node's digest that comes from an entry. -/
def entryDigest [NodeDigest] (e : Entry Context) : Option UInt64 × Int :=
  (e.parent.map digest, e.returnState)

/-- A new node with one entry, and the identity that is free after it. An entry of the empty
stack without a parent is the empty context. -/
def singleton [NodeDigest] (e : Entry Context) (next : NodeId) : Context × NodeId :=
  if e.parent.isNone ∧ e.returnState = emptyReturn then (empty, next)
  else (node next (NodeDigest.digest .singleton [entryDigest e]) e [], next + 1)

/-- A new node with the given entries, and the identity that is free after it. The entries are
in strictly ascending order of their return states; no entries are the empty context. -/
def ofEntries [NodeDigest] (entries : List (Entry Context)) (next : NodeId) : Context × NodeId :=
  match entries with
  | [] => (empty, next)
  | [e] => singleton e next
  | first :: rest =>
    (node next (NodeDigest.digest .array (entries.map entryDigest)) first rest, next + 1)

/-- A return state pushed on every stack of a context. -/
def push [NodeDigest] (c : Context) (returnState : Int) (next : NodeId) : Context × NodeId :=
  singleton ⟨some c, returnState⟩ next

/-- Return states pushed one on the other, the last of the list first. -/
def pushAll [NodeDigest] (c : Context) (returnStates : List Int) (next : NodeId) :
    Context × NodeId :=
  returnStates.foldr (fun r made => made.1.push r made.2) (c, next)

/-! ## Weight -/

mutual

/-- A number that exceeds the weights of all parents together; recursions over several contexts
end because it falls. -/
def weight : Context → Nat
  | empty => 2
  | node _ _ first rest => 1 + entryWeight first + entriesWeight rest

/-- The weight of an entry: that of its parent and something for the entry itself. -/
def entryWeight : Entry Context → Nat
  | ⟨none, _⟩ => 1
  | ⟨some p, _⟩ => 4 + p.weight

/-- The weight of a list of entries. -/
def entriesWeight : List (Entry Context) → Nat
  | [] => 0
  | e :: rest => entryWeight e + entriesWeight rest

end

/-- The weight of a rest of the stack. -/
def parentWeight : Option Context → Nat
  | none => 0
  | some p => 3 + p.weight

/-- An entry weighs one more than the rest of the stack under it. -/
theorem entryWeight_eq (e : Entry Context) : entryWeight e = 1 + parentWeight e.parent := by
  rcases e with ⟨_ | p, r⟩ <;> simp only [entryWeight, parentWeight]
  omega

/-- The entries of a context weigh less than the context. -/
theorem entriesWeight_entries_lt (c : Context) : entriesWeight c.entries < c.weight := by
  cases c with
  | empty => decide
  | node id digest first rest => simp only [entries, entriesWeight, weight]; omega

/-- What is under the first entry weighs less than the context. -/
theorem parentWeight_top_lt (c : Context) : parentWeight c.top.parent < c.weight := by
  cases c with
  | empty => decide
  | node id digest first rest => simp only [top, weight, entryWeight_eq]; omega

/-- The weights of the listed contexts together. -/
def totalWeight : List Context → Nat
  | [] => 0
  | c :: rest => c.weight + totalWeight rest

/-- The weights of two lists of contexts add up. -/
theorem totalWeight_append (cs ds : List Context) :
    totalWeight (cs ++ ds) = totalWeight cs + totalWeight ds := by
  induction cs with
  | nil => simp only [List.nil_append, totalWeight, Nat.zero_add]
  | cons c rest ih => simp only [List.cons_append, totalWeight, ih, Nat.add_assoc]

/-- The parents of entries weigh no more than the entries. -/
theorem totalWeight_parents_le (es : List (Entry Context)) :
    totalWeight (es.filterMap Entry.parent) ≤ entriesWeight es := by
  induction es with
  | nil => exact Nat.le_refl 0
  | cons e rest ih =>
    rcases e with ⟨_ | p, r⟩ <;>
      simp only [List.filterMap_cons, entriesWeight, entryWeight, totalWeight] <;> omega

/-- The parents of a context together weigh less than the context. -/
theorem totalWeight_parents_lt (c : Context) : totalWeight c.parents < c.weight :=
  Nat.lt_of_le_of_lt (totalWeight_parents_le c.entries) (entriesWeight_entries_lt c)

end Context

end TransitionNetwork
